/-!
# Numbers

Numbers are IEEE 754 binary64 values, held as their bit patterns so that two numbers are the same
exactly when they agree bit for bit. Sums, products and comparisons are those of binary64
arithmetic. A nonnegative rational is read exactly: `Number.ofRatio` rounds it to the nearest
number, a half to the even neighbour, with gradual underflow below and infinity above.

* `Number.mantissa`, `Number.exponent`: a finite number is `± mantissa · 2 ^ exponent`;
* `Number.ofRatio`, `Number.ofDecimalText`: reading with correct rounding;
* `Number.toCount?`: the positive integer a number stands for.
-/

namespace Offside

/-- A binary64 value. -/
structure Number where
  /-- Sign bit, eleven exponent bits and fifty-two fraction bits, from the high end. -/
  bits : UInt64
  deriving DecidableEq, Repr, Inhabited

namespace Number

/-! ### Fields and finite values -/

/-- The number of fraction bits. -/
def fractionWidth : Nat := 52

/-- The exponent field of infinities and NaNs. -/
def topExponent : Nat := 2047

/-- The exponent of the last place of the smallest numbers. -/
def leastExponent : Int := -1074

/-- The fraction field. -/
def fractionField (x : Number) : Nat := x.bits.toNat % Nat.pow 2 fractionWidth

/-- The exponent field. -/
def exponentField (x : Number) : Nat := x.bits.toNat / Nat.pow 2 fractionWidth % 2048

/-- Whether the sign bit is set. -/
def isNegative (x : Number) : Bool := Nat.pow 2 63 ≤ x.bits.toNat

/-- The number with its sign bit cleared. -/
def magnitude (x : Number) : Number := ⟨UInt64.ofNat (x.bits.toNat % Nat.pow 2 63)⟩

/-- Whether a number is neither an infinity nor a NaN. -/
def isFinite (x : Number) : Bool := x.exponentField ≠ topExponent

/-- Whether a number is one of the two infinities. -/
def isInfinite (x : Number) : Bool := x.exponentField = topExponent && x.fractionField = 0

/-- Whether a number is a NaN. -/
def isNaN (x : Number) : Bool := x.exponentField = topExponent && x.fractionField ≠ 0

/-- The integer part of the representation: the fraction with its hidden bit, if it has one. -/
def mantissa (x : Number) : Nat :=
  if x.exponentField = 0 then x.fractionField else Nat.pow 2 fractionWidth + x.fractionField

/-- The power of two that the mantissa counts. -/
def exponent (x : Number) : Int :=
  if x.exponentField = 0 then leastExponent else x.exponentField - 1075

/-- The magnitude of a finite number as a quotient of naturals. -/
def toRatio (x : Number) : Nat × Nat :=
  if 0 ≤ x.exponent then (x.mantissa * Nat.pow 2 x.exponent.toNat, 1)
  else (x.mantissa, Nat.pow 2 (-x.exponent).toNat)

/-! ### Rounding a rational -/

/-- Zero with a clear sign. -/
def zero : Number := ⟨0⟩

/-- Positive infinity. -/
def infinity : Number := ⟨0x7FF0000000000000⟩

/-- The integer nearest to `n / d`; a half goes to the even neighbour. -/
def roundDiv (n d : Nat) : Nat :=
  let q := n / d
  let r := n % d
  if 2 * r < d then q else if d < 2 * r then q + 1 else q + q % 2

/-- The quotient `n / d` divided by `2 ^ e`, as numerator and denominator. -/
def scaleDown (n d : Nat) (e : Int) : Nat × Nat :=
  if 0 ≤ e then (n, d * Nat.pow 2 e.toNat) else (n * Nat.pow 2 (-e).toNat, d)

/-- The greatest `e` with `2 ^ e ≤ n / d`, for positive `n` and `d`. -/
def floorLog2 (n d : Nat) : Int :=
  let e : Int := (n.log2 : Int) - d.log2
  let (a, b) := scaleDown n d e
  if a < b then e - 1 else e

/-- The exponent of the last place kept when `n / d` is rounded. -/
def placeExponent (n d : Nat) : Int := max leastExponent (floorLog2 n d - fractionWidth)

/-- The number nearest to `n / d`; a half goes to the even neighbour, and a quotient too large is
infinite. The mantissa is added to the exponent field, so that a hidden bit, or a carry out of the
mantissa, raises the field by itself. -/
def ofRatio (n d : Nat) : Number :=
  if n = 0 then zero
  else
    let e := placeExponent n d
    let (a, b) := scaleDown n d e
    let pattern := (e - leastExponent).toNat * Nat.pow 2 fractionWidth + roundDiv a b
    if pattern < topExponent * Nat.pow 2 fractionWidth then ⟨UInt64.ofNat pattern⟩ else infinity

/-- The number nearest to a natural. -/
def ofNat (n : Nat) : Number := ofRatio n 1

/-! ### Reading decimal digits -/

/-- The value of a decimal digit. -/
def digitValue (c : Char) : Nat := c.toNat - '0'.toNat

/-- The value of a row of decimal digits. -/
def digitsValue (cs : List Char) : Nat := cs.foldl (fun n c => 10 * n + digitValue c) 0

/-- The number nearest to the decimal `whole.fraction`. -/
def ofDecimal (whole fraction : List Char) : Number :=
  ofRatio (digitsValue (whole ++ fraction)) (Nat.pow 10 fraction.length)

/-- The number written as digits, or as digits, a dot and digits. -/
def ofDecimalText (cs : List Char) : Number :=
  ofDecimal (cs.takeWhile (· ≠ '.')) ((cs.dropWhile (· ≠ '.')).drop 1)

/-! ### Arithmetic -/

/-- The number as a machine value. -/
def toFloat (x : Number) : Float := Float.ofBits x.bits

/-- The number a machine value is. -/
def ofFloat (f : Float) : Number := ⟨f.toBits⟩

/-- The sum, rounded to nearest. -/
def add (x y : Number) : Number := ofFloat (x.toFloat + y.toFloat)

/-- The difference, rounded to nearest. -/
def sub (x y : Number) : Number := ofFloat (x.toFloat - y.toFloat)

/-- The product, rounded to nearest. -/
def mul (x y : Number) : Number := ofFloat (x.toFloat * y.toFloat)

/-- The quotient, rounded to nearest. -/
def div (x y : Number) : Number := ofFloat (x.toFloat / y.toFloat)

/-- The number with its sign changed. -/
def neg (x : Number) : Number := ofFloat (-x.toFloat)

/-- Equality of values: the two zeros are equal and a NaN equals nothing. -/
def same (x y : Number) : Bool := x.toFloat == y.toFloat

/-- Strict order of values; false when either is a NaN. -/
def less (x y : Number) : Bool := x.toFloat < y.toFloat

/-- Order of values; false when either is a NaN. -/
def atMost (x y : Number) : Bool := x.toFloat ≤ y.toFloat

/-- Whether a number is one of the two zeros. -/
def isZero (x : Number) : Bool := x.same zero

/-! ### Counting -/

/-- The positive integer that a number is, if it is one. -/
def toCount? (x : Number) : Option Nat :=
  if x.isFinite && !x.isNegative then
    let (n, d) := x.toRatio
    if 0 < n && n % d = 0 then some (n / d) else none
  else none

/-- The largest integer up to which a number can count in steps of one. -/
def countLimit : Nat := Nat.pow 2 53

/-- One more, while numbers can tell; at `countLimit` adding one no longer changes a number. -/
def countUp (done : Nat) : Nat := if done < countLimit then done + 1 else done

end Number

end Offside
