import Offside.Proofs.Rounding
import Offside.Proofs.Spelling
import Offside.Proofs.Truncation

/-!
# Displayed numbers, read back

The digits that a number is displayed with are a number to the scanner, and the same one, bit for
bit. A decimal is only chosen if it reads back as the number, or if it has exactly the value of the
number, and reading rounds a value that a number has to this number. What is left is that the digits
of a decimal are read as that decimal, and that they stand in a text as a single token.

* `Decimal.ofDecimalText_toChars`: the digits of a decimal, read;
* `Number.toNumber_shortestDecimal`: the decimal that a number is displayed as;
* `Layout.scan_word`: the tokens of a text that is a single word;
* `Number.displayed_scans_back`: what is displayed for a number, scanned.
-/

namespace Offside

/-! ### Digits -/

namespace Number

/-- Digits are read as core reads them. -/
theorem digitsValue_eq (cs : List Char) : digitsValue cs = Nat.ofDigitChars 10 cs 0 := rfl

@[simp] theorem digitsValue_toDigits (n : ℕ) : digitsValue (Nat.toDigits 10 n) = n :=
  Nat.ofDigitChars_toDigits (by decide) (by decide)

theorem digitsValue_append (as bs : List Char) :
    digitsValue (as ++ bs) = 10 ^ bs.length * digitsValue as + digitsValue bs := by
  rw [digitsValue_eq, Nat.ofDigitChars_append, Nat.ofDigitChars_eq_ofDigitChars_zero]
  rfl

end Number

namespace Decimal

@[simp] theorem digitsValue_paddedDigits (width n : ℕ) :
    Number.digitsValue (paddedDigits width n) = n := by
  rw [paddedDigits, Number.digitsValue_append, Number.digitsValue_eq (List.replicate _ _),
    Nat.ofDigitChars_replicate_zero, Number.digitsValue_toDigits]
  simp

theorem length_paddedDigits {width n : ℕ} (hwidth : 0 < width) (hn : n < 10 ^ width) :
    (paddedDigits width n).length = width := by
  have hle := (Nat.length_toDigits_le_iff (by decide) hwidth).2 hn
  rw [paddedDigits, List.length_append, List.length_replicate]
  omega

/-- Digits are digits to the scanner. -/
theorem isDigits_toDigits (n : ℕ) : Piece.IsDigits (Nat.toDigits 10 n) := by
  refine ⟨Nat.toDigits_ne_nil, fun c hc => ?_⟩
  have hdigit := Nat.isDigit_of_mem_toDigits (by decide) (by decide) hc
  simp only [Char.isDigit, Bool.and_eq_true, decide_eq_true_eq] at hdigit
  simpa [Piece.isDigit, Char.le_def] using hdigit

theorem isDigits_paddedDigits (width n : ℕ) : Piece.IsDigits (paddedDigits width n) := by
  obtain ⟨hne, hdigits⟩ := isDigits_toDigits n
  refine ⟨by simp [paddedDigits, hne], fun c hc => ?_⟩
  rcases List.mem_append.1 hc with hc | hc
  · rw [List.eq_of_mem_replicate hc]
    decide
  · exact hdigits c hc

/-- The digits of a decimal are a number to the scanner. -/
theorem isDecimal_toChars (d : Decimal) : Piece.IsDecimal d.toChars := by
  unfold toChars
  split
  · exact .inl (isDigits_toDigits _)
  · exact .inr ⟨_, _, isDigits_toDigits _, isDigits_paddedDigits _ _, rfl⟩

/-- There is no dot among digits. -/
theorem ne_dot_of_isDigits {cs : List Char} (h : Piece.IsDigits cs) :
    ∀ c ∈ cs, decide (c ≠ '.') = true := by
  refine fun c hc => decide_eq_true ?_
  rintro rfl
  exact absurd (h.2 _ hc) (by decide)

/-- The digits of a decimal are read as the decimal. -/
theorem ofDecimalText_toChars (d : Decimal) : Number.ofDecimalText d.toChars = d.toNumber := by
  unfold Number.ofDecimalText Number.ofDecimal toNumber toRatio toChars
  split
  · have hdots := ne_dot_of_isDigits (isDigits_toDigits (d.coefficient * Nat.pow 10 d.scale.toNat))
    rw [List.takeWhile_eq_self_iff.2 hdots, List.dropWhile_eq_nil_iff.2 hdots]
    simp
  · next hscale =>
    have hdots := ne_dot_of_isDigits
      (isDigits_toDigits (d.coefficient / Nat.pow 10 (-d.scale).toNat))
    have hlength : (paddedDigits (-d.scale).toNat
        (d.coefficient % Nat.pow 10 (-d.scale).toNat)).length = (-d.scale).toNat :=
      length_paddedDigits (by omega) (Nat.mod_lt _ (Nat.pow_pos (by decide)))
    dsimp only
    rw [List.takeWhile_append_of_pos hdots, List.dropWhile_append_of_pos hdots]
    simp only [ne_eq, not_true_eq_false, decide_false, Bool.false_eq_true, not_false_eq_true,
      List.takeWhile_cons_of_neg, List.dropWhile_cons_of_neg, List.append_nil, List.drop_succ_cons,
      List.drop_zero]
    rw [Number.digitsValue_append, hlength, Number.digitsValue_toDigits, digitsValue_paddedDigits,
      Nat.pow_eq, Nat.div_add_mod]

/-! ### The decimal of a number -/

theorem toRatio_pos (d : Decimal) : 0 < d.toRatio.2 := by
  unfold toRatio
  split
  · exact Nat.one_pos
  · exact Nat.pow_pos (by decide)

end Decimal

namespace Number

/-- The exact decimal of a number has its value: a power of two in the denominator is one of ten
with as many fives in the numerator. -/
theorem exactDecimal_value (x : Number) :
    (x.exactDecimal.toRatio.1 : ℚ) / x.exactDecimal.toRatio.2 = x.mantissa * 2 ^ x.exponent := by
  unfold exactDecimal
  split
  · next he =>
    obtain ⟨k, hk⟩ := Int.eq_ofNat_of_zero_le he
    simp [Decimal.toRatio, hk]
  · next he =>
    obtain ⟨k, hk⟩ : ∃ k : ℕ, x.exponent = -k := ⟨(-x.exponent).toNat, by omega⟩
    have hpos : ¬ (0 : ℤ) ≤ -k := by omega
    simp only [Decimal.toRatio, hk, if_neg hpos, neg_neg, Int.toNat_natCast, Nat.pow_eq,
      Nat.cast_mul, Nat.cast_pow, Nat.cast_ofNat, zpow_neg, zpow_natCast]
    rw [show (10 : ℚ) = 5 * 2 by norm_num, mul_pow]
    field_simp

/-- A decimal is only taken where it was found to read back. -/
theorem decimalOfDigits?_toNumber {x : Number} {count : ℕ} {d : Decimal}
    (h : x.decimalOfDigits? count = some d) : d.toNumber = x.magnitude := by
  have hchoice : ∀ {c : Prop} [Decidable c] {below above : Decimal},
      below.toNumber = x.magnitude → above.toNumber = x.magnitude →
        (if c then below else above).toNumber = x.magnitude := by
    intro c _ below above hbelow habove
    split
    · exact hbelow
    · exact habove
  unfold decimalOfDigits? at h
  dsimp only at h
  split at h
  · next hbelow habove =>
    exact Option.some.inj h ▸ hchoice (of_decide_eq_true hbelow) (of_decide_eq_true habove)
  · next hbelow _ => exact Option.some.inj h ▸ of_decide_eq_true hbelow
  · next _ habove => exact Option.some.inj h ▸ of_decide_eq_true habove
  · cases h

/-- The decimal that a finite number is displayed as reads back as the number, without its sign. -/
theorem toNumber_shortestDecimal {x : Number} (h : x.isFinite = true) :
    x.shortestDecimal.toNumber = x.magnitude := by
  unfold shortestDecimal
  split
  · next hmantissa =>
    refine ofRatio_of_value h Nat.one_pos ?_
    simp [hmantissa]
  · cases hsearch : digitCounts.findSome? x.decimalOfDigits? with
    | none => exact ofRatio_of_value h x.exactDecimal.toRatio_pos x.exactDecimal_value
    | some d =>
      obtain ⟨count, -, hcount⟩ := List.exists_of_findSome?_eq_some hsearch
      exact decimalOfDigits?_toNumber hcount

/-- A finite number without a sign is displayed with the digits of its decimal. -/
theorem toText_of_finite {x : Number} (hfinite : x.isFinite = true) (hsign : x.isNegative = false)
    (infinityWord : String) :
    x.toText infinityWord = String.ofList x.shortestDecimal.toChars := by
  have hfield : x.exponentField ≠ topExponent := of_decide_eq_true hfinite
  simp [toText, isNaN, isInfinite, hfield, hsign]

end Number

/-! ### A text that is a single word -/

theorem Text.lines_of_not_mem {w : List Char} (hne : w ≠ []) (h : '\n' ∉ w) :
    lines w = [⟨w, false⟩] := by
  have hfrom : ∀ seen, (seen ++ w : List Char) ≠ [] →
      linesFrom seen w = [⟨seen.reverse ++ w, false⟩] := by
    induction w with
    | nil =>
      intro seen hseen
      simp [linesFrom, show seen ≠ [] by simpa using hseen]
    | cons c w ih =>
      obtain ⟨hc, hw⟩ := List.ne_and_not_mem_of_not_mem_cons h
      intro seen _
      rw [linesFrom, if_neg hc.symm]
      cases w with
      | nil => simp [linesFrom]
      | cons d w => simpa using ih (by simp) hw (c :: seen) (by simp)
  exact hfrom [] (by simpa using hne)

/-- The tokens of a text that is a single word: the word, and the ends of the line and the text. -/
theorem Layout.scan_word {w : List Char} {kind : Kind} (h : Piece.IsWord w kind) :
    scan w =
      { tokens :=
          [{ kind := kind, lexeme := String.ofList w, literal := literal? kind w, line := 1,
             span := ⟨0, Text.size w⟩ },
           { kind := .newline, lexeme := "\n", line := 1, span := Span.empty (Text.size w) },
           { kind := .endOfFile, lexeme := "", line := 1, span := Span.empty (Text.size w) }],
        errors := [] } := by
  obtain ⟨c, cs, rfl, hclassify⟩ := h.classified
  have hword := hclassify [] (.inl rfl)
  rw [List.append_nil] at hword
  have hcls : (Piece.classify c cs).1 = .token kind := by rw [hword]
  let l : Text.Line := ⟨c :: cs, false⟩
  -- the word is not indented
  have hpart : Indent.isPart c = false := by
    by_contra hpart
    have hspace := Indent.isWhiteSpace_of_isPart (Bool.eq_true_of_not_eq_false hpart)
    rw [Piece.not_isWhiteSpace_of_classify hcls] at hspace
    cases hspace
  have hblanks : l.blanks = [] := by simp [l, Text.Line.blanks, hpart]
  have hbody : l.body = c :: cs := by simp [l, Text.Line.body, hpart]
  have hvisible : l.Visible := Text.Line.visible_of_body hbody hcls
  have hpieces := scanPieces_word h (.inl rfl) 1 0
  rw [List.append_nil] at hpieces
  have hindent : l.indent = Indent.base := by
    rw [Text.Line.indent, hblanks]
    rfl
  have hending : ending 1 0 l =
      { kind := .newline, lexeme := "\n", line := 1,
        span := Span.empty (Text.size (c :: cs)) } := by
    rw [ending, Nat.zero_add, Nat.zero_add]
    rfl
  have hsize : 0 + l.size = Text.size (c :: cs) := Nat.zero_add _
  rw [scan, Text.lines_of_not_mem (List.cons_ne_nil c cs) h.newline, scanFrom,
    scanLine_of_visible hvisible, scanBody, hblanks, hbody, Text.size_nil, Nat.add_zero, hpieces,
    hindent, hending, hsize, Nat.zero_add]
  rfl

/-! ### Display -/

namespace Number

/-- What is displayed for a finite number without a sign is scanned as that number. It is a single
token, whose literal is the number, and the end of the line and of the text follow; there is no
fault. -/
theorem displayed_scans_back (x : Number) (hfinite : x.isFinite = true)
    (hsign : x.isNegative = false) :
    let text := (Value.number x).toText
    let size := Text.size text.toList
    (∀ (m : Machine) (paren : Token), m.sink.isOpen = true → ∃ m',
      Eval.callNative .display [.number x] paren m = .done .empty m' ∧
        m'.sink.text = m.sink.text ++ text ++ "\n") ∧
      Layout.scan text.toList =
        { tokens :=
            [{ kind := .number, lexeme := text, literal := some (.number x), line := 1,
               span := ⟨0, size⟩ },
             { kind := .newline, lexeme := "\n", line := 1, span := Span.empty size },
             { kind := .endOfFile, lexeme := "", line := 1, span := Span.empty size }],
          errors := [] } := by
  intro text size
  refine ⟨fun m paren hopen => ?_, ?_⟩
  · have hwrite := Sink.writeLine_of_open x.not_mem_toText hopen
    have hdisplay : Eval.display (.number x) paren m =
        .done .empty { m with sink := m.sink.addLine text } := by
      rw [Eval.display, Value.toText, hwrite]
      rfl
    refine ⟨{ m with sink := m.sink.addLine text }, ?_, rfl⟩
    show (Eval.display (.number x) paren >>= fun _ => pure .empty : Run Value) m = _
    rw [Run.bind_of_done hdisplay]
    rfl
  · have htext : text.toList = x.shortestDecimal.toChars := by
      rw [← String.toList_ofList (l := x.shortestDecimal.toChars),
        ← toText_of_finite hfinite hsign "infinity"]
      rfl
    have hword := Piece.isWord_decimal x.shortestDecimal.isDecimal_toChars
    have hliteral : Layout.literal? .number text.toList = some (.number x) := by
      rw [htext, Layout.literal?, Decimal.ofDecimalText_toChars, toNumber_shortestDecimal hfinite,
        magnitude_of_not_isNegative hsign]
    rw [← htext] at hword
    rw [Layout.scan_word hword, hliteral, String.ofList_toList]

/-- The least positive number has one digit, after three hundred and twenty-three zeros. -/
theorem displayed_scans_back_least :
    let x : Number := ⟨1⟩
    let text := String.ofList ('0' :: '.' :: List.replicate 323 '0' ++ ['5'])
    x.isFinite = true ∧ x.isNegative = false ∧ (Value.number x).toText = text ∧
      (Layout.scan text.toList).tokens.map Token.literal = [some (.number x), none, none] := by
  intro x text
  have hfinite : x.isFinite = true := by decide
  have hsign : x.isNegative = false := by decide
  have htext : (Value.number x).toText = text := by decide +kernel
  have hscan := (displayed_scans_back x hfinite hsign).2
  rw [htext] at hscan
  refine ⟨hfinite, hsign, htext, ?_⟩
  rw [hscan]
  rfl

end Number

end Offside
