/-!
# Binary64 numbers

A number is its 64-bit interchange pattern.  A finite magnitude is a whole multiple of
`2 ^ -1074`, the least positive magnitude, and everything here is counted in that unit, so that
rounding a rational number to the format is a question about natural numbers.  The patterns of
the non-negative numbers ascend with their values, which makes a carry out of the significand
the right pattern without further adjustment.

A numeral is a run of ASCII digits, or two runs with a point between them.  It denotes a rational
number exactly, and its value in binary64 is that number rounded once.
-/

namespace LoxScan.Number

/-- A number in the binary64 interchange format, NaN payloads included. -/
structure Binary64 where
  bits : UInt64
deriving DecidableEq, Repr

namespace Binary64

/-- One more than the largest value of the fraction field, which has 52 bits. -/
def fractionLimit : Nat := Nat.pow 2 52

def fraction (x : Binary64) : Nat := x.bits.toNat % fractionLimit

/-- The exponent field has 11 bits. -/
def biasedExponent (x : Binary64) : Nat := x.bits.toNat / fractionLimit % Nat.pow 2 11

def isNegative (x : Binary64) : Bool := Nat.pow 2 63 ≤ x.bits.toNat

def isNaN (x : Binary64) : Bool := x.biasedExponent == 2047 && x.fraction != 0

def isInfinite (x : Binary64) : Bool := x.biasedExponent == 2047 && x.fraction == 0

def isZero (x : Binary64) : Bool := x.biasedExponent == 0 && x.fraction == 0

/-- The leading bit is implied unless the exponent field is zero. -/
def significand (x : Binary64) : Nat :=
  if x.biasedExponent = 0 then x.fraction else fractionLimit + x.fraction

/-- Distance from a finite magnitude to the next larger one, in units of `2 ^ -1074`. -/
def spacing (x : Binary64) : Nat := Nat.pow 2 (x.biasedExponent - 1)

/-- A finite magnitude in units of `2 ^ -1074`. -/
def magnitude (x : Binary64) : Nat := x.significand * x.spacing

/-- Numbers are compared by value: the two zeros agree, and a NaN agrees with nothing. -/
def agrees (x y : Binary64) : Bool :=
  !x.isNaN && !y.isNaN && (x == y || (x.isZero && y.isZero))

/-- The whole number nearest to a quotient, the even one if two are equally near. -/
def roundQuotient (numerator denominator : Nat) : Nat :=
  let quotient := numerator / denominator
  let remainder := numerator % denominator
  if 2 * remainder < denominator ∨ (2 * remainder = denominator ∧ quotient % 2 = 0) then quotient
  else quotient + 1

/-- The pattern of positive infinity, which is also the first one too large to be finite. -/
def infinityPattern : Nat := 2047 * fractionLimit

/-- The pattern of the number nearest to a non-negative quotient before the finite range is
taken into account.  The quotient is divided by the spacing of the numbers around it, so that
rounding to a whole number is rounding to the format. -/
def nearestPattern (numerator denominator : Nat) : Nat :=
  let scaled := numerator * Nat.pow 2 1074
  let exponent := (scaled / denominator).log2 - 52
  exponent * fractionLimit + roundQuotient scaled (denominator * Nat.pow 2 exponent)

/-- The number nearest to a non-negative quotient, of two equally near ones the one with an even
significand.  Quotients that round beyond the largest finite number become infinite. -/
def ofRatio (numerator denominator : Nat) : Binary64 :=
  ⟨UInt64.ofNat (min infinityPattern (nearestPattern numerator denominator))⟩

end Binary64

structure Numeral where
  whole : List Char
  fraction : Option (List Char)
deriving DecidableEq, Repr

namespace Numeral

def digitValue (c : Char) : Nat := c.toNat - '0'.toNat

def ofDigits (digits : List Char) : Nat := digits.foldl (fun n c ↦ 10 * n + digitValue c) 0

def text (n : Numeral) : List Char :=
  n.whole ++ match n.fraction with
    | none => []
    | some fraction => '.' :: fraction

def fractionDigits (n : Numeral) : List Char := n.fraction.getD []

/-- The denoted rational is `numerator / denominator`. -/
def numerator (n : Numeral) : Nat := ofDigits (n.whole ++ n.fractionDigits)

def denominator (n : Numeral) : Nat := Nat.pow 10 n.fractionDigits.length

def value (n : Numeral) : Binary64 := Binary64.ofRatio n.numerator n.denominator

end Numeral

end LoxScan.Number
