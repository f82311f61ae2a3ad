import Mathlib.Algebra.Order.Field.Power
import Mathlib.Data.Int.Log
import Mathlib.Data.Rat.Floor
import Mathlib.Tactic.Positivity
import Offside.Number

/-!
# Rounding what is a number already

A rational is rounded to the nearest number by keeping as many places as a mantissa has, or as there
are above the last place of the smallest numbers. The value of a finite number has no more places
than that, so it is rounded to the number itself, however it is written as a quotient.

* `Number.floorLog2_eq`: the greatest power of two up to a quotient;
* `Number.Canonical`: mantissas and exponents as numbers have them;
* `Number.placeExponent_of_canonical`: the places kept of such a value are those of its mantissa;
* `Number.ofRatio_of_value`: the value of a finite number is rounded to its magnitude.
-/

namespace Offside.Number

/-! ### Quotients -/

theorem scaleDown_pos (n : ℕ) {d : ℕ} (hd : 0 < d) (e : ℤ) : 0 < (scaleDown n d e).2 := by
  unfold scaleDown
  split
  · exact Nat.mul_pos hd (Nat.two_pow_pos _)
  · exact hd

theorem scaleDown_value (n d : ℕ) (e : ℤ) :
    ((scaleDown n d e).1 : ℚ) / (scaleDown n d e).2 = n / d / 2 ^ e := by
  unfold scaleDown
  split
  · next he =>
    obtain ⟨k, rfl⟩ := Int.eq_ofNat_of_zero_le he
    simp [div_div]
  · next he =>
    obtain ⟨k, rfl⟩ : ∃ k : ℕ, e = -k := ⟨(-e).toNat, by omega⟩
    simp only [neg_neg, Int.toNat_natCast, Nat.pow_eq, Nat.cast_mul, Nat.cast_pow, Nat.cast_ofNat,
      zpow_neg, zpow_natCast, div_inv_eq_mul]
    rw [mul_div_right_comm]

theorem log_of_bounds {v : ℚ} {e : ℤ} (hlow : 2 ^ e ≤ v) (hhigh : v < 2 ^ (e + 1)) :
    Int.log 2 v = e := by
  have hv : 0 < v := lt_of_lt_of_le (by positivity) hlow
  refine le_antisymm (Int.lt_add_one_iff.1 ?_) ?_
  · exact (Int.lt_zpow_iff_log_lt one_lt_two hv).1 (by exact_mod_cast hhigh)
  · exact (Int.zpow_le_iff_le_log one_lt_two hv).1 (by exact_mod_cast hlow)

/-- The lengths of numerator and denominator leave two candidates for the power of two. -/
theorem floorLog2_eq {n d : ℕ} (hn : 0 < n) (hd : 0 < d) :
    floorLog2 n d = Int.log 2 ((n : ℚ) / d) := by
  have hd' : (0 : ℚ) < d := by exact_mod_cast hd
  have hlow : (2 : ℚ) ^ n.log2 ≤ n := by exact_mod_cast Nat.log2_self_le hn.ne'
  have hhigh : (n : ℚ) < 2 ^ (n.log2 + 1) := by exact_mod_cast Nat.lt_log2_self
  have hlow' : (2 : ℚ) ^ d.log2 ≤ d := by exact_mod_cast Nat.log2_self_le hd.ne'
  have hhigh' : (d : ℚ) < 2 ^ (d.log2 + 1) := by exact_mod_cast Nat.lt_log2_self
  set e : ℤ := (n.log2 : ℤ) - d.log2 with he
  have habove : (n : ℚ) / d < 2 ^ (e + 1) := by
    have hpow : (2 : ℚ) ^ (e + 1) * 2 ^ d.log2 = 2 ^ (n.log2 + 1) := by
      rw [← zpow_natCast, ← zpow_natCast, ← zpow_add₀ two_ne_zero]
      congr 1
      push_cast
      omega
    rw [div_lt_iff₀ hd']
    calc (n : ℚ) < 2 ^ (n.log2 + 1) := hhigh
      _ = 2 ^ (e + 1) * 2 ^ d.log2 := hpow.symm
      _ ≤ 2 ^ (e + 1) * d := by gcongr
  have hbelow : (2 : ℚ) ^ (e - 1) ≤ n / d := by
    have hpow : (2 : ℚ) ^ (e - 1) * 2 ^ (d.log2 + 1) = 2 ^ n.log2 := by
      rw [← zpow_natCast, ← zpow_natCast, ← zpow_add₀ two_ne_zero]
      congr 1
      push_cast
      omega
    rw [le_div_iff₀ hd']
    calc (2 : ℚ) ^ (e - 1) * d ≤ 2 ^ (e - 1) * 2 ^ (d.log2 + 1) := by gcongr
      _ = 2 ^ n.log2 := hpow
      _ ≤ n := hlow
  -- which of the two it is shows once the quotient is divided by the greater one
  have hpos := scaleDown_pos n hd e
  have hvalue := scaleDown_value n d e
  have htest : (scaleDown n d e).1 < (scaleDown n d e).2 ↔ (n : ℚ) / d < 2 ^ e := by
    have hpos' : (0 : ℚ) < (scaleDown n d e).2 := by exact_mod_cast hpos
    rw [← div_lt_one (by positivity : (0 : ℚ) < 2 ^ e), ← hvalue, div_lt_one hpos']
    exact_mod_cast Iff.rfl
  unfold floorLog2
  dsimp only
  split
  · next h => exact (log_of_bounds hbelow (by simpa using htest.1 h)).symm
  · next h => exact (log_of_bounds (not_lt.1 (mt htest.2 h)) habove).symm

/-- A quotient without remainder is not changed. -/
theorem roundDiv_mul (m : ℕ) {d : ℕ} (hd : 0 < d) : roundDiv (m * d) d = m := by
  rw [roundDiv, Nat.mul_mod_left, Nat.mul_div_cancel m hd]
  exact if_pos (by simpa using hd)

/-! ### Values of numbers -/

/-- A mantissa at an exponent as numbers have them: a mantissa with its hidden bit, or any smaller
one at the least exponent. -/
structure Canonical (m : ℕ) (e : ℤ) : Prop where
  least : leastExponent ≤ e
  lt : m < 2 ^ 53
  full : e = leastExponent ∨ 2 ^ 52 ≤ m

theorem fractionField_lt (x : Number) : x.fractionField < 2 ^ 52 :=
  Nat.mod_lt _ (Nat.two_pow_pos 52)

theorem canonical (x : Number) : Canonical x.mantissa x.exponent := by
  have hfraction := x.fractionField_lt
  unfold mantissa exponent
  split
  · exact ⟨le_rfl, by omega, .inl rfl⟩
  · refine ⟨?_, ?_, .inr ?_⟩
    · unfold leastExponent
      omega
    · simp only [fractionWidth, Nat.pow_eq]
      omega
    · simp only [fractionWidth, Nat.pow_eq]
      omega

/-- The places kept of a value are those of its mantissa. -/
theorem placeExponent_of_canonical {m n d : ℕ} {e : ℤ} (h : Canonical m e) (hn : 0 < n) (hd : 0 < d)
    (hvalue : (n : ℚ) / d = m * 2 ^ e) : placeExponent n d = e := by
  obtain ⟨hleast, hlt, hfull⟩ := h
  have hpos : (0 : ℚ) < n / d := by positivity
  have hle : Int.log 2 ((n : ℚ) / d) < 53 + e := by
    refine (Int.lt_zpow_iff_log_lt one_lt_two hpos).1 ?_
    rw [hvalue, Nat.cast_ofNat, zpow_add₀ two_ne_zero]
    gcongr
    exact_mod_cast hlt
  rw [placeExponent, floorLog2_eq hn hd]
  rcases hfull with rfl | hfull
  · simp only [fractionWidth]
    omega
  · have hge : 52 + e ≤ Int.log 2 ((n : ℚ) / d) := by
      refine (Int.zpow_le_iff_le_log one_lt_two hpos).1 ?_
      rw [hvalue, Nat.cast_ofNat, zpow_add₀ two_ne_zero]
      gcongr
      exact_mod_cast hfull
    simp only [fractionWidth]
    omega

/-- The pattern of a number without its sign, from its parts. -/
theorem pattern_eq (x : Number) :
    (x.exponent - leastExponent).toNat * 2 ^ 52 + x.mantissa = x.bits.toNat % 2 ^ 63 := by
  unfold mantissa exponent exponentField fractionField leastExponent fractionWidth
  simp only [Nat.pow_eq]
  split <;> omega

theorem pattern_lt {x : Number} (h : x.isFinite = true) :
    x.bits.toNat % 2 ^ 63 < 2047 * 2 ^ 52 := by
  have hfield : x.exponentField ≠ 2047 := of_decide_eq_true h
  simp only [exponentField, fractionWidth, Nat.pow_eq] at hfield
  omega

/-- A quotient with the value of a finite number is rounded to that number, without its sign. -/
theorem ofRatio_of_value {x : Number} (hfinite : x.isFinite = true) {n d : ℕ} (hd : 0 < d)
    (hvalue : (n : ℚ) / d = x.mantissa * 2 ^ x.exponent) : ofRatio n d = x.magnitude := by
  have hd' : (d : ℚ) ≠ 0 := by positivity
  unfold ofRatio
  split
  · next hn =>
    -- a number without a mantissa is zero
    have hmantissa : x.mantissa = 0 := by
      rw [hn, Nat.cast_zero, zero_div, eq_comm, mul_eq_zero, Nat.cast_eq_zero] at hvalue
      exact hvalue.resolve_right (by positivity)
    have hbits : x.bits.toNat % 2 ^ 63 = 0 := by
      have hfull := x.canonical.full
      rw [hmantissa] at hfull
      rw [← x.pattern_eq, hmantissa, hfull.resolve_right (by decide), sub_self]
      rfl
    rw [magnitude, Nat.pow_eq, hbits]
    rfl
  · next hn =>
    have hplace := placeExponent_of_canonical x.canonical (Nat.pos_of_ne_zero hn) hd hvalue
    have hpos := scaleDown_pos n hd x.exponent
    have hscaled := scaleDown_value n d x.exponent
    have hexact : (scaleDown n d x.exponent).1 = x.mantissa * (scaleDown n d x.exponent).2 := by
      rw [hvalue, mul_div_assoc, div_self (by positivity), mul_one,
        div_eq_iff (by positivity)] at hscaled
      exact_mod_cast hscaled
    dsimp only
    rw [hplace, hexact, roundDiv_mul _ hpos, fractionWidth, Nat.pow_eq, x.pattern_eq,
      topExponent, if_pos (pattern_lt hfinite)]
    rfl

theorem magnitude_of_not_isNegative {x : Number} (h : x.isNegative = false) : x.magnitude = x := by
  have hlt : x.bits.toNat < 2 ^ 63 := by simpa [isNegative, Nat.pow_eq] using h
  rw [magnitude, Nat.pow_eq, Nat.mod_eq_of_lt hlt, UInt64.ofNat_toNat]

end Offside.Number
