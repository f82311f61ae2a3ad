import Offside.Number

/-!
# The shortest decimal of a number

A finite number is written with the fewest decimal digits that read back as that number, in plain
positional notation and without an exponent. For one digit, two digits and so on, the two decimals
of that many digits around the number are read back; the first count of digits at which one of them
is the number itself wins. Of two that read back the nearer is taken, and of two equally near the
larger.
-/

namespace Offside

/-- The decimal `coefficient · 10 ^ scale`. -/
structure Decimal where
  /-- The digits, as a natural number. -/
  coefficient : Nat
  /-- The power of ten that the last digit counts. -/
  scale : Int
  deriving DecidableEq, Repr

namespace Decimal

/-- The value as a quotient of naturals. -/
def toRatio (d : Decimal) : Nat × Nat :=
  if 0 ≤ d.scale then (d.coefficient * Nat.pow 10 d.scale.toNat, 1)
  else (d.coefficient, Nat.pow 10 (-d.scale).toNat)

/-- The number that a decimal reads as. -/
def toNumber (d : Decimal) : Number :=
  let (n, k) := d.toRatio
  Number.ofRatio n k

/-- The digits of a natural, at least `width` of them. -/
def paddedDigits (width n : Nat) : List Char :=
  let digits := Nat.toDigits 10 n
  List.replicate (width - digits.length) '0' ++ digits

/-- Positional notation: all digits of the whole part, and a fraction only below scale zero. -/
def toChars (d : Decimal) : List Char :=
  if 0 ≤ d.scale then Nat.toDigits 10 (d.coefficient * Nat.pow 10 d.scale.toNat)
  else
    let places := (-d.scale).toNat
    Nat.toDigits 10 (d.coefficient / Nat.pow 10 places) ++
      '.' :: paddedDigits places (d.coefficient % Nat.pow 10 places)

end Decimal

namespace Number

/-- The decimal with exactly the value of a finite number. -/
def exactDecimal (x : Number) : Decimal :=
  if 0 ≤ x.exponent then ⟨x.mantissa * Nat.pow 2 x.exponent.toNat, 0⟩
  else ⟨x.mantissa * Nat.pow 5 (-x.exponent).toNat, x.exponent⟩

/-- The `p` with `10 ^ (p - 1) ≤ n / d < 10 ^ p`, for positive `n` and `d`. -/
def decimalPoint (n d : Nat) : Int :=
  if d ≤ n then ((Nat.toDigits 10 (n / d)).length : Int)
  else 1 - ((Nat.toDigits 10 ((n + d - 1) / n - 1)).length : Int)

/-- The decimal of `count` digits, just below or just above a number, that reads back as it. -/
def decimalOfDigits? (x : Number) (count : Nat) : Option Decimal :=
  let (n, d) := x.toRatio
  let scale := decimalPoint n d - count
  let (a, b) :=
    if 0 ≤ scale then (n, d * Nat.pow 10 scale.toNat) else (n * Nat.pow 10 (-scale).toNat, d)
  let below : Decimal := ⟨a / b, scale⟩
  -- The next decimal up; a carry through all digits leaves a single one.
  let above : Decimal :=
    if a / b + 1 = Nat.pow 10 count then ⟨1, scale + count⟩ else ⟨a / b + 1, scale⟩
  match decide (below.toNumber = x.magnitude), decide (above.toNumber = x.magnitude) with
  | true, true => some (if 2 * (a % b) < b then below else above)
  | true, false => some below
  | false, true => some above
  | false, false => none

/-- The counts of digits to try; seventeen digits always suffice. -/
def digitCounts : List Nat := (List.range 17).map (· + 1)

/-- The decimal with the fewest digits that reads back as the magnitude of a finite number. -/
def shortestDecimal (x : Number) : Decimal :=
  if x.mantissa = 0 then ⟨0, 0⟩
  else (digitCounts.findSome? x.decimalOfDigits?).getD x.exactDecimal

/-- The text of a number, with `infinityWord` for an infinite magnitude. A NaN has no sign. -/
def toText (infinityWord : String) (x : Number) : String :=
  if x.isNaN then "nan"
  else
    let digits := if x.isInfinite then infinityWord else String.ofList x.shortestDecimal.toChars
    if x.isNegative then "-" ++ digits else digits

end Number

end Offside
