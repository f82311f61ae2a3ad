import Mathlib
import Offside.Eval
import Offside.Proofs.Rounding

/-!
# Counting in numbers

The count of a loop is a number, and so is what the loop has counted so far: it starts at zero, one
is added each time round, and the loop goes on as long as it is less than the count. Natural numbers
up to `2 ^ 53` are numbers, sums of one with those below are exact, and numbers that are natural
numbers are compared as these are. So the loop goes round as many times as its count says.

* `Number.value?`: the value of a finite number;
* `Number.toCount?_eq_some`: the numbers that are positive integers;
* `Number.Counts`, `Number.IsNat`: numbers that are natural numbers;
* `Number.IsNat.less`, `Number.IsNat.add_one`: these are compared and counted up as natural numbers;
* `Eval.timesLoop_eq_numberLoop`: a loop that counts in numbers.
-/

namespace Offside

namespace Number

/-! ### Values -/

/-- The value of a finite number. -/
def value? (x : Number) : Option ℚ :=
  if x.isFinite then
    some ((if x.isNegative then -1 else 1) * x.mantissa * (2 : ℚ) ^ x.exponent)
  else none

theorem toRatio_pos (x : Number) : 0 < x.toRatio.2 := by
  unfold toRatio
  split
  · exact Nat.one_pos
  · exact Nat.two_pow_pos _

/-- The quotient that a finite number is read as is its magnitude. -/
theorem toRatio_value (x : Number) :
    (x.mantissa : ℚ) * 2 ^ x.exponent = x.toRatio.1 / x.toRatio.2 := by
  unfold toRatio
  split
  · next hexponent =>
    obtain ⟨e, he⟩ := Int.eq_ofNat_of_zero_le hexponent
    simp [he]
  · next hexponent =>
    obtain ⟨e, he⟩ := Int.eq_ofNat_of_zero_le (a := -x.exponent) (by omega)
    have he' : x.exponent = -(e : Int) := by omega
    simp [he', zpow_neg, div_eq_mul_inv]

/-- A count, by the quotient that the number is read as. -/
theorem toCount?_iff {x : Number} {n : Nat} :
    x.toCount? = some n ↔
      x.isFinite = true ∧ x.isNegative = false ∧ 1 ≤ n ∧ x.toRatio.1 = n * x.toRatio.2 := by
  have hpos : 0 < x.toRatio.2 := x.toRatio_pos
  unfold toCount?
  simp only [Option.ite_none_right_eq_some, Bool.and_eq_true, Bool.not_eq_true', decide_eq_true_eq,
    Option.some.injEq, and_assoc]
  refine and_congr_right fun _ => and_congr_right fun _ => ?_
  constructor
  · rintro ⟨hratio, hmod, rfl⟩
    have hdvd : x.toRatio.2 ∣ x.toRatio.1 := Nat.dvd_of_mod_eq_zero hmod
    exact ⟨Nat.div_pos (Nat.le_of_dvd hratio hdvd) hpos, (Nat.div_mul_cancel hdvd).symm⟩
  · rintro ⟨hn, hratio⟩
    rw [hratio]
    exact ⟨Nat.mul_pos hn hpos, Nat.mul_mod_left _ _, Nat.mul_div_cancel n hpos⟩

/-- The positive integers among the numbers. -/
theorem toCount?_eq_some {x : Number} {n : Nat} :
    x.toCount? = some n ↔ 1 ≤ n ∧ x.value? = some (n : ℚ) := by
  have hvalue := x.toRatio_value
  have hpos : (0 : ℚ) < x.toRatio.2 := by exact_mod_cast x.toRatio_pos
  have hratio : (x.toRatio.1 : ℚ) / x.toRatio.2 = n ↔ x.toRatio.1 = n * x.toRatio.2 := by
    rw [div_eq_iff hpos.ne']
    exact_mod_cast Iff.rfl
  rw [toCount?_iff, value?]
  cases x.isFinite with
  | false => simp
  | true =>
    cases x.isNegative with
    | true =>
      have hle : -(x.mantissa : ℚ) * 2 ^ x.exponent ≤ 0 := by
        rw [neg_mul, hvalue]
        exact neg_nonpos.2 (by positivity)
      simp only [Bool.true_eq_false, false_and, and_false, if_true, neg_one_mul, Option.some.injEq,
        false_iff, not_and]
      intro hn heq
      have hone : (1 : ℚ) ≤ n := by exact_mod_cast hn
      exact (hone.trans (heq ▸ hle)).not_gt one_pos
    | false => simp [hvalue, hratio]

/-! ### Natural numbers among the binary64 values -/

section Model

open Float.Model Float.Model.UnpackedFloat

/-- A binary64 value, taken apart, that is a natural number: zero, or a mantissa of fifty-three bits
at its scale. -/
inductive Counts : UnpackedFloat → Nat → Prop
  | zero : Counts (.zero .positive) 0
  | normal {m n s : Nat} (hpos : 0 < m) (hmin : 2 ^ 52 ≤ m) (hmax : m < 2 ^ 53) (hscale : s ≤ 1023)
      (hvalue : m * 2 ^ s = n * 2 ^ 52) : Counts (.finite .positive m (s - 52) hpos) n

/-- The value one. -/
def oneUnpacked : UnpackedFloat := .finite .positive (2 ^ 52) (-52) (by decide)

/-- Mantissas in their range order values at different scales as their scales. -/
theorem scaled_lt {m m' s s' : Nat} (hmax : m < 2 ^ 53) (hmin : 2 ^ 52 ≤ m') (hs : s < s') :
    m * 2 ^ s < m' * 2 ^ s' :=
  calc m * 2 ^ s < 2 ^ 53 * 2 ^ s := Nat.mul_lt_mul_of_pos_right hmax (Nat.two_pow_pos s)
    _ = 2 ^ 52 * 2 ^ (s + 1) := by rw [Nat.pow_succ 2 52, Nat.mul_assoc, ← Nat.pow_succ']
    _ ≤ m' * 2 ^ s' := Nat.mul_le_mul hmin (Nat.pow_le_pow_right (by decide) hs)

theorem Counts.lt {u v : UnpackedFloat} {j k : Nat} (hu : Counts u j) (hv : Counts v k) :
    u.lt v = true ↔ j < k := by
  cases hu with
  | zero =>
    cases hv with
    | zero => simp [UnpackedFloat.lt, UnpackedFloat.compare]
    | @normal m k s hpos hmin hmax hscale hvalue =>
      have hk : 0 < k := Nat.pos_of_mul_pos_right (hvalue ▸ Nat.mul_pos hpos (Nat.two_pow_pos s))
      simp [UnpackedFloat.lt, UnpackedFloat.compare, hk]
  | @normal m j s hpos hmin hmax hscale hvalue =>
    cases hv with
    | zero => simp [UnpackedFloat.lt, UnpackedFloat.compare]
    | @normal m' k s' hpos' hmin' hmax' hscale' hvalue' =>
      have hiff : j < k ↔ m * 2 ^ s < m' * 2 ^ s' := by
        rw [hvalue, hvalue']
        exact (Nat.mul_lt_mul_right (by decide)).symm
      have hcompare : (UnpackedFloat.finite .positive m (s - 52) hpos).lt
          (.finite .positive m' (s' - 52) hpos') =
            ((compare ((s : Int) - 52) (s' - 52)).then (compare m m') == .lt) := rfl
      rw [hcompare, hiff, beq_iff_eq]
      rcases Nat.lt_trichotomy s s' with hs | rfl | hs
      · have hless := scaled_lt hmax hmin' hs
        rw [Int.compare_eq_lt.2 (by omega)]
        simp [hless]
      · have hpow := Nat.two_pow_pos s
        rw [Int.compare_eq_eq.2 rfl]
        simp [Nat.mul_lt_mul_right hpow, Nat.compare_eq_lt]
      · have hgreater := scaled_lt hmax' hmin hs
        rw [Int.compare_eq_gt.2 (by omega)]
        simp [Nat.lt_asymm hgreater]

/-! ### Sums -/

theorem log2_mantissa {m : Nat} (hmin : 2 ^ 52 ≤ m) (hmax : m < 2 ^ 53) (s : Nat) :
    (m * 2 ^ s).log2 = 52 + s := by
  have hpow := Nat.two_pow_pos s
  have hpos : m * 2 ^ s ≠ 0 := Nat.ne_of_gt (Nat.mul_pos (by omega) hpow)
  rw [Nat.log2_eq_iff hpos]
  constructor
  · rw [Nat.pow_add]
    exact Nat.mul_le_mul_right _ hmin
  · rw [Nat.add_right_comm, Nat.pow_add]
    exact Nat.mul_lt_mul_of_pos_right hmax hpow

/-- Shifting takes away zeros without a trace. -/
theorem shiftRight_exact (m s : Nat) :
    ExtendedMantissa.mk (m * 2 ^ s) false false >>> s = ExtendedMantissa.mk m false false := by
  induction s generalizing m with
  | zero => simp [HShiftRight.hShiftRight, Nat.repeat]
  | succ s ih =>
    have hstep : ExtendedMantissa.mk (m * 2 ^ (s + 1)) false false >>> (s + 1) =
        (ExtendedMantissa.mk (m * 2 * 2 ^ s) false false >>> s).shiftRightOne := by
      rw [Nat.mul_assoc, ← Nat.pow_succ']
      rfl
    rw [hstep, ih]
    simp [ExtendedMantissa.shiftRightOne]

theorem targetExponent_mantissa {m : Nat} (hmin : 2 ^ 52 ≤ m) (hmax : m < 2 ^ 53) (s k : Nat) :
    Format.binary64.targetExponent (totalExponent (m * 2 ^ s) ((k : Int) - 52)) = s + k - 52 := by
  have hbits : (Format.binary64.mantissaBits : Int) = 53 := rfl
  have hleast : Format.binary64.minExponent = -1074 := rfl
  rw [Format.targetExponent, totalExponent, log2_mantissa hmin hmax, hbits, hleast]
  omega

/-- A mantissa in its range takes its scale without rounding. -/
theorem round_exact {m : Nat} (hpos : 0 < m) (hmin : 2 ^ 52 ≤ m) (hmax : m < 2 ^ 53) (s : Nat) :
    UnpackedFloat.round Format.binary64 .positive (m * 2 ^ s) (-52) =
      .finite .positive m (s - 52) hpos := by
  have hfirst : Format.binary64.targetExponent (totalExponent (m * 2 ^ s) (-52)) = s - 52 := by
    simpa using targetExponent_mantissa hmin hmax s 0
  have hsecond : Format.binary64.targetExponent (totalExponent m (s - 52)) = s - 52 := by
    simpa using targetExponent_mantissa hmin hmax 0 s
  have hdown : ((-52 : Int) - (s - 52)).toNat = 0 := by omega
  have hup : ((s : Int) - 52 - -52).toNat = s := by omega
  have hexponent : (-52 : Int) + s = s - 52 := by omega
  have hstay : ∀ em : ExtendedMantissa, em >>> (0 : Nat) = em := fun _ => rfl
  simp only [UnpackedFloat.round, decreaseExponent, roundWithAccuracy, shiftToTargetExponent,
    shiftToExponent, hfirst, hdown, Nat.shiftLeft_zero, Int.natCast_zero, Int.sub_zero, hup,
    ExtendedMantissa.ofMantissaAndAccuracy, shiftRight_exact, ExtendedMantissa.roundedMantissa,
    ExtendedMantissa.accuracy, Accuracy.roundToNearestEven, hexponent, hsecond, Int.sub_self,
    Int.toNat_zero, hstay, Int.add_zero, dif_neg (Nat.ne_of_gt hpos)]

/-- A positive natural number up to `2 ^ 53` has a mantissa in the range. -/
theorem exists_mantissa {n : Nat} (hpos : 0 < n) (hmax : n ≤ 2 ^ 53) :
    ∃ m s, 2 ^ 52 ≤ m ∧ m < 2 ^ 53 ∧ s ≤ 53 ∧ m * 2 ^ s = n * 2 ^ 52 := by
  by_cases hlimit : n = 2 ^ 53
  · exact ⟨2 ^ 52, 53, by decide, by decide, by decide, by rw [hlimit, Nat.mul_comm]⟩
  · have hlog : n.log2 < 53 := (Nat.log2_lt (Nat.ne_of_gt hpos)).2 (by omega)
    obtain ⟨hlow, hhigh⟩ := (Nat.log2_eq_iff (Nat.ne_of_gt hpos)).1 (Eq.refl n.log2)
    obtain ⟨r, hr⟩ := Nat.exists_eq_add_of_le (Nat.le_of_lt_succ hlog)
    refine ⟨n * 2 ^ r, n.log2, ?_, ?_, hlog.le, ?_⟩
    · rw [hr, Nat.pow_add]
      exact Nat.mul_le_mul_right _ hlow
    · have hbound : 2 ^ 53 = 2 ^ (n.log2 + 1) * 2 ^ r := by
        rw [← Nat.pow_add, Nat.add_right_comm, ← hr]
      rw [hbound]
      exact Nat.mul_lt_mul_of_pos_right hhigh (Nat.two_pow_pos r)
    · rw [Nat.mul_assoc, ← Nat.pow_add, Nat.add_comm r, ← hr]

/-- A whole multiple of the last place of one is rounded to the natural number it is. -/
theorem counts_round {n : Nat} (hpos : 0 < n) (hmax : n ≤ 2 ^ 53) :
    Counts (UnpackedFloat.round Format.binary64 .positive (n * 2 ^ 52) (-52)) n := by
  obtain ⟨m, s, hlow, hhigh, hs, hvalue⟩ := exists_mantissa hpos hmax
  rw [← hvalue, round_exact (by omega) hlow hhigh]
  exact .normal _ hlow hhigh (by omega) hvalue

theorem normalize_natCast {n : Nat} (hpos : 0 < n) (e : Int) (zeroSign : Sign) :
    UnpackedFloat.normalize Format.binary64 n e zeroSign =
      UnpackedFloat.round Format.binary64 .positive n e := by
  have hcompare : compare (n : Int) 0 = .gt := Int.compare_eq_gt.2 (by omega)
  rw [UnpackedFloat.normalize, hcompare]
  rfl

/-- One added to a positive natural number is the natural number after it, rounded. -/
theorem add_one_eq_round {m s n : Nat} (hpos : 0 < m) (hvalue : m * 2 ^ s = n * 2 ^ 52) :
    UnpackedFloat.add Format.binary64 (.finite .positive m (s - 52) hpos) oneUnpacked =
      UnpackedFloat.round Format.binary64 .positive ((n + 1) * 2 ^ 52) (-52) := by
  have hsmaller : min ((s : Int) - 52) (-52) = -52 := by omega
  have hshift : ((s : Int) - 52 - -52).toNat = s := by omega
  have hsum : ((m <<< s : Nat) : Int) + ((2 ^ 52 <<< 0 : Nat) : Int) =
      ((n + 1) * 2 ^ 52 : Nat) := by
    rw [Nat.shiftLeft_eq, hvalue, Nat.shiftLeft_zero, Nat.succ_mul, Int.natCast_add]
  have hadd : UnpackedFloat.add Format.binary64 (.finite .positive m (s - 52) hpos) oneUnpacked =
      UnpackedFloat.normalize Format.binary64
        (((m <<< ((s : Int) - 52 - min ((s : Int) - 52) (-52)).toNat : Nat) : Int) +
          ((2 ^ 52 <<< (-52 - min ((s : Int) - 52) (-52)).toNat : Nat) : Int))
        (min ((s : Int) - 52) (-52)) .positive := rfl
  rw [hadd, hsmaller, hshift, Int.sub_self, Int.toNat_zero, hsum]
  exact normalize_natCast (Nat.mul_pos n.succ_pos (Nat.two_pow_pos 52)) _ _

/-- Below `2 ^ 53` adding one is exact, and there it changes nothing. -/
theorem Counts.add_one {u : UnpackedFloat} {n : Nat} (h : Counts u n) (hn : n ≤ countLimit) :
    Counts (UnpackedFloat.add Format.binary64 u oneUnpacked) (countUp n) := by
  cases h with
  | zero => exact .normal (s := 0) _ (Nat.le_refl _) (by decide) (by decide) (by decide)
  | normal hpos hmin hmax hscale hvalue =>
    rw [add_one_eq_round hpos hvalue, countUp]
    split
    · next hlt => exact counts_round n.succ_pos hlt
    · next hlimit =>
      obtain rfl : n = countLimit := Nat.le_antisymm hn (Nat.le_of_not_lt hlimit)
      have hround : UnpackedFloat.round Format.binary64 .positive ((countLimit + 1) * 2 ^ 52) (-52) =
          .finite .positive (2 ^ 52) ((53 : Nat) - 52) (by decide) := rfl
      rw [hround]
      exact .normal _ (Nat.le_refl _) (by decide) (by decide) (by decide)

/-! ### Packing -/

/-- A value that its exponent field makes normal is read from its fields. -/
theorem unpack_normal {b : BitVec 64} (hsign : @unpackSign .binary64 b = 0#1) {e f : Nat}
    (hexponent : (@unpackExponent .binary64 b).toNat = e)
    (hmantissa : (@unpackMantissa .binary64 b).toNat = f) (hmin : 0 < e) (hmax : e < 2047) :
    UnpackedFloat.unpack .binary64 b = .finite .positive (2 ^ 52 + f) (e - 1075) (by omega) := by
  have hfinite : @unpackExponent .binary64 b ≠ -1#_ := by
    intro h
    rw [h] at hexponent
    exact absurd hexponent (Nat.ne_of_gt hmax)
  have hnormal : @unpackExponent .binary64 b ≠ 0#_ := by
    intro h
    rw [h] at hexponent
    exact absurd hexponent (Nat.ne_of_lt hmin)
  have hfraction : f < 2 ^ 52 := hmantissa ▸ (@unpackMantissa .binary64 b).isLt
  have hhidden : (1#1 ++ @unpackMantissa .binary64 b).toNat = 2 ^ 52 + f := by
    rw [BitVec.toNat_append, hmantissa, Nat.shiftLeft_eq, Nat.mul_comm]
    exact (Nat.two_pow_add_eq_or_of_lt hfraction 1).symm
  have hbias : (Format.binary64.exponentBias : Int) + Format.binary64.mantissaBitsWithoutImplicit =
      1075 := rfl
  simp only [UnpackedFloat.unpack, if_neg hfinite, if_neg hnormal, hhidden, hexponent, hbias, hsign]
  rfl

theorem unpackSign_packComponents (e : BitVec 11) (f : BitVec 52) :
    unpackSign (packComponents Format.binary64 .positive e f) = 0#1 := by
  show (0#1 ++ e ++ f).extractLsb' 63 1 = 0#1
  rw [BitVec.extractLsb'_append_eq_of_le (by decide), BitVec.extractLsb'_append_eq_of_le (by decide)]
  rfl

/-- Natural numbers are read back from their bits. -/
theorem Counts.unpack_pack {u : UnpackedFloat} {n : Nat} (h : Counts u n) :
    UnpackedFloat.unpack .binary64 (UnpackedFloat.pack .binary64 u) = u := by
  cases h with
  | zero => rfl
  | @normal m n s hpos hmin hmax hscale hvalue =>
    have hlog : m.log2 + 1 = Format.binary64.mantissaBits := by
      have := log2_mantissa hmin hmax 0
      rw [Nat.pow_zero, Nat.mul_one] at this
      rw [this]
      rfl
    have hbiased : ((s : Int) - 52 + Format.binary64.exponentBias +
        Format.binary64.mantissaBitsWithoutImplicit).toNat = s + 1023 := by
      show ((s : Int) - 52 + 1023 + 52).toNat = s + 1023
      omega
    have hfits : ¬2 ^ Format.binary64.exponentBits ≤ s + 1023 + 1 := by
      show ¬2048 ≤ s + 1023 + 1
      omega
    simp only [UnpackedFloat.pack, hbiased, if_neg hfits, if_pos hlog]
    have hexponent : (BitVec.ofNat 11 (s + 1023)).toNat = s + 1023 := by
      rw [BitVec.toNat_ofNat]
      omega
    have hmantissa : (BitVec.ofNat 52 m).toNat = m - 2 ^ 52 := by
      rw [BitVec.toNat_ofNat]
      omega
    have hread := unpack_normal (unpackSign_packComponents (.ofNat 11 (s + 1023)) (.ofNat 52 m))
      ((congrArg BitVec.toNat unpackExponent_packComponents).trans hexponent)
      ((congrArg BitVec.toNat unpackMantissa_packComponents).trans hmantissa)
      (Nat.succ_pos _) (Nat.lt_succ_of_le (Nat.add_le_add_right hscale 1023))
    have hsum : 2 ^ 52 + (m - 2 ^ 52) = m := Nat.add_sub_cancel' hmin
    have hshift : ((s + 1023 : Nat) : Int) - 1075 = s - 52 := by omega
    simpa only [hsum, hshift] using hread

/-! ### Numbers that are natural numbers -/

/-- A number that is a natural number. -/
def IsNat (x : Number) (n : Nat) : Prop := Counts (UnpackedFloat.unpack .binary64 x.bits.toBitVec) n

theorem IsNat.toFloat {x : Number} {n : Nat} (h : IsNat x n) :
    x.toFloat.toModel.unpack = UnpackedFloat.unpack .binary64 x.bits.toBitVec :=
  Counts.unpack_pack h

theorem isNat_zero : IsNat zero 0 := .zero

theorem ofNat_one : ofNat 1 = ⟨0x3FF0000000000000⟩ := by decide

theorem IsNat.less {x y : Number} {j k : Nat} (hx : IsNat x j) (hy : IsNat y k) :
    x.less y = decide (j < k) := by
  have hlt : x.less y = x.toFloat.toModel.unpack.lt y.toFloat.toModel.unpack :=
    Bool.decide_eq_true.trans Bool.decide_eq_true
  rw [hlt, hx.toFloat, hy.toFloat, Bool.eq_iff_iff, decide_eq_true_iff]
  exact Counts.lt hx hy

theorem IsNat.add_one {x : Number} {n : Nat} (h : IsNat x n) (hn : n ≤ countLimit) :
    IsNat (x.add (ofNat 1)) (countUp n) := by
  have hsum := Counts.add_one h hn
  have hbits : UnpackedFloat.unpack .binary64 (x.add (ofNat 1)).bits.toBitVec =
      UnpackedFloat.unpack .binary64 (UnpackedFloat.pack .binary64 (UnpackedFloat.add .binary64
        x.toFloat.toModel.unpack (ofNat 1).toFloat.toModel.unpack)) := rfl
  have hone : (ofNat 1).toFloat.toModel.unpack = oneUnpacked := by
    rw [ofNat_one]
    rfl
  rw [IsNat, hbits, h.toFloat, hone, hsum.unpack_pack]
  exact hsum

theorem toNat_unpackExponent (x : Number) :
    (@unpackExponent .binary64 x.bits.toBitVec).toNat = x.exponentField := by
  unfold unpackExponent
  rw [BitVec.toNat_cast, BitVec.extractLsb_toNat, Nat.shiftRight_eq_div_pow]
  rfl

theorem toNat_unpackMantissa (x : Number) :
    (@unpackMantissa .binary64 x.bits.toBitVec).toNat = x.fractionField := by
  unfold unpackMantissa
  rw [BitVec.toNat_cast, BitVec.extractLsb_toNat]
  rfl

theorem unpackSign_of_not_isNegative {x : Number} (h : x.isNegative = false) :
    @unpackSign .binary64 x.bits.toBitVec = 0#1 := by
  have hlt : x.bits.toNat < 2 ^ 63 := by
    simpa [isNegative] using h
  refine BitVec.eq_of_toNat_eq ?_
  unfold unpackSign
  rw [BitVec.toNat_cast, BitVec.extractLsb_toNat, Nat.shiftRight_eq_div_pow]
  show x.bits.toNat / 2 ^ 63 % 2 ^ 1 = 0
  rw [Nat.div_eq_of_lt hlt]

theorem exponentField_lt (x : Number) : x.exponentField < 2048 := Nat.mod_lt _ (by decide)

theorem mantissa_lt (x : Number) : x.mantissa < 2 ^ 53 := x.canonical.lt

theorem mantissa_of_exponent_neg {x : Number} {n : Nat} (h : x.exponent < 0)
    (hratio : x.toRatio.1 = n * x.toRatio.2) : x.mantissa = n * 2 ^ (-x.exponent).toNat := by
  rwa [toRatio, if_neg (Int.not_le.2 h)] at hratio

theorem mantissa_of_exponent_nonneg {x : Number} {n : Nat} (h : 0 ≤ x.exponent)
    (hratio : x.toRatio.1 = n * x.toRatio.2) : x.mantissa * 2 ^ x.exponent.toNat = n := by
  rwa [toRatio, if_pos h, Nat.mul_one] at hratio

/-- A number with a smaller exponent is not a positive integer. -/
theorem exponent_ge {x : Number} {n : Nat} (hn : 1 ≤ n) (hratio : x.toRatio.1 = n * x.toRatio.2) :
    -52 ≤ x.exponent := by
  by_contra hsmall
  have hmantissa := mantissa_of_exponent_neg (by omega) hratio
  have hpow : 2 ^ 53 ≤ 2 ^ (-x.exponent).toNat := Nat.pow_le_pow_right (by decide) (by omega)
  have hle : 2 ^ 53 ≤ x.mantissa :=
    hmantissa ▸ Nat.le_trans hpow (Nat.le_mul_of_pos_left _ hn)
  exact absurd x.mantissa_lt (Nat.not_lt_of_le hle)

/-- A count is a natural number among the numbers. -/
theorem isNat_of_toCount? {x : Number} {n : Nat} (h : x.toCount? = some n) : IsNat x n := by
  obtain ⟨hfinite, hsign, hn, hratio⟩ := toCount?_iff.1 h
  have hexponent := exponent_ge hn hratio
  have hfield := x.exponentField_lt
  have htop : x.exponentField ≠ 2047 := of_decide_eq_true hfinite
  have hnormal : x.exponentField ≠ 0 := by
    intro hzero
    rw [exponent, if_pos hzero] at hexponent
    exact absurd hexponent (by decide)
  have hmantissa : 2 ^ 52 + x.fractionField = x.mantissa := (if_neg hnormal).symm
  have hshift : x.exponent = x.exponentField - 1075 := if_neg hnormal
  obtain ⟨s, hs⟩ := Int.eq_ofNat_of_zero_le (a := x.exponent + 52) (by omega)
  have hscale : x.exponent = s - 52 := by omega
  have hread := unpack_normal (unpackSign_of_not_isNegative hsign) x.toNat_unpackExponent
    x.toNat_unpackMantissa (by omega) (by omega)
  simp only [hmantissa, ← hshift, hscale] at hread
  rw [IsNat, hread]
  refine .normal _ (hmantissa ▸ Nat.le_add_right _ _) x.mantissa_lt (by omega) ?_
  rcases Int.lt_or_le x.exponent 0 with hneg | hnonneg
  · have hwhole : (-x.exponent).toNat + s = 52 := by omega
    rw [mantissa_of_exponent_neg hneg hratio, Nat.mul_assoc, ← Nat.pow_add, hwhole]
  · have hwhole : s = x.exponent.toNat + 52 := by omega
    rw [hwhole, Nat.pow_add, ← Nat.mul_assoc, mantissa_of_exponent_nonneg hnonneg hratio]

end Model

end Number

/-! ### Loops that count in numbers -/

namespace Eval

/-- A body as long as the number `done` of times it has run is less than the number `count`. -/
def numberLoop (body : Run Flow) (count : Number) : Nat → Number → Run Flow
  | 0, _, _ => .exhausted
  | fuel + 1, done, m =>
    if done.less count then
      match body m with
      | .done .normal m => numberLoop body count fuel (done.add (.ofNat 1)) m
      | r => r
    else .done .normal m

/-- A loop that counts in natural numbers and one that counts in numbers go round alike. The
induction is on the fuel, with what both have counted so far. -/
theorem timesLoop_eq_numberLoop_of_isNat (body : Run Flow) {count : Number} {n : Nat}
    (hcount : count.toCount? = some n) (fuel : Nat) {done : Number} {k : Nat} (hdone : done.IsNat k)
    (hk : k ≤ Number.countLimit) : timesLoop body n fuel k = numberLoop body count fuel done := by
  induction fuel generalizing done k with
  | zero => rfl
  | succ fuel ih =>
    funext m
    have hnext := hdone.add_one hk
    have hless := hdone.less (Number.isNat_of_toCount? hcount)
    have hbound : Number.countUp k ≤ Number.countLimit := by
      unfold Number.countUp
      split <;> omega
    rw [timesLoop, numberLoop, hless]
    by_cases hlt : k < n
    · rw [if_pos hlt, if_pos (decide_eq_true hlt)]
      cases body m with
      | done flow m₁ =>
        cases flow with
        | normal => exact congrFun (ih hnext hbound) m₁
        | returned v => rfl
      | fault d m₁ => rfl
      | exhausted => rfl
    · rw [if_neg hlt, if_neg (by simpa using hlt)]

/-- A loop goes round as often as its count says, counted in numbers from zero in steps of one. -/
theorem timesLoop_eq_numberLoop (body : Run Flow) {count : Number} {n : Nat}
    (hcount : count.toCount? = some n) (fuel : Nat) :
    timesLoop body n fuel 0 = numberLoop body count fuel .zero :=
  timesLoop_eq_numberLoop_of_isNat body hcount fuel Number.isNat_zero (Nat.zero_le _)

end Eval

end Offside
