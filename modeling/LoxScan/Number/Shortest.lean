import LoxScan.Number.Binary64

/-!
# Shortest decimals

The decimal of a number is the one with the fewest digits among those that round back to it, and
among these the nearest.  For each count of digits there is a grid of decimals around the number,
and if any point of that grid rounds back then one of the two grid neighbours of the number does.
Distances are compared exactly, as natural numbers over one denominator.

A number is displayed by its shortest decimal: positionally with at least one fractional digit
from `10 ^ -4` up to but excluding `10 ^ 16`, and in scientific form beyond.
-/

namespace LoxScan.Number

/-- The value `coefficient * 10 ^ exponent`. -/
structure Decimal where
  coefficient : Nat
  exponent : Int
deriving DecidableEq, Repr

/-- The interval of reals around a value that rounds to it.  The ends belong to it if `closed`. -/
structure Neighbourhood where
  low : Nat
  value : Nat
  high : Nat
  closed : Bool
deriving DecidableEq, Repr

namespace Neighbourhood

/-- What rounds to a finite positive number, in units of `2 ^ -1076`.  The interval ends halfway
to the neighbouring numbers, of which the lower one is at half the distance below a power of two,
and its ends round to the number iff the significand is even. -/
def ofBinary64 (x : Binary64) : Neighbourhood :=
  let value := 4 * x.magnitude
  let narrow := x.fraction == 0 && 1 < x.biasedExponent
  { low := value - (if narrow then x.spacing else 2 * x.spacing)
    value := value
    high := value + 2 * x.spacing
    closed := x.significand % 2 == 0 }

/-- Values are multiplied by `10 ^ fineDigits`, which makes every decimal grid needed here a grid
of natural numbers. -/
def fineDigits : Nat := 400

def fineness : Nat := Nat.pow 10 fineDigits

/-- How many of the units in which the interval is counted make one. -/
def unitsOfOne : Nat := Nat.pow 2 1076

/-- Number of decimal digits of the whole part of the value after that multiplication. -/
def wholeDigits (n : Neighbourhood) : Nat :=
  (Nat.toDigits 10 (n.value * fineness / unitsOfOne)).length

/-- Whether a point that has been multiplied likewise rounds to the value. -/
def contains (n : Neighbourhood) (point : Nat) : Bool :=
  if n.closed then n.low * fineness ≤ point && point ≤ n.high * fineness
  else n.low * fineness < point && point < n.high * fineness

/-- The point of the grid with the given count of digits that rounds to the value, the nearer one
if both grid neighbours do, and the upper one if these are equally near. -/
def onGrid? (n : Neighbourhood) (digits : Nat) : Option Decimal :=
  let step := Nat.pow 10 (n.wholeDigits - digits) * unitsOfOne
  let lower := n.value * fineness / step
  let decimal (coefficient : Nat) : Decimal :=
    ⟨coefficient, (n.wholeDigits : Int) - digits - fineDigits⟩
  match n.contains (lower * step), n.contains ((lower + 1) * step) with
  | false, false => none
  | true, false => some (decimal lower)
  | false, true => some (decimal (lower + 1))
  | true, true =>
    if n.value * fineness - lower * step < (lower + 1) * step - n.value * fineness then
      some (decimal lower)
    else some (decimal (lower + 1))

end Neighbourhood

/-- The shortest decimal of a finite positive number.  Seventeen digits always suffice. -/
def Binary64.shortest (x : Binary64) : Decimal :=
  ((List.range' 1 17).findSome? (Neighbourhood.ofBinary64 x).onGrid?).getD ⟨0, 0⟩

namespace Decimal

/-- The significant digits, without zeros at the end. -/
def digits (d : Decimal) : List Char :=
  ((Nat.toDigits 10 d.coefficient).reverse.dropWhile (· = '0')).reverse

/-- Place of the decimal point counted from the front of the digits. -/
def point (d : Decimal) : Int := (Nat.toDigits 10 d.coefficient).length + d.exponent

def positional (digits : List Char) (point : Int) : List Char :=
  let whole :=
    if point ≤ 0 then ['0']
    else digits.take point.toNat ++ List.replicate (point.toNat - digits.length) '0'
  let fraction := List.replicate (-point).toNat '0' ++ digits.drop point.toNat
  whole ++ '.' :: if fraction.isEmpty then ['0'] else fraction

def scientific (digits : List Char) (point : Int) : List Char :=
  let fraction := digits.drop 1
  digits.take 1 ++ (if fraction.isEmpty then [] else '.' :: fraction) ++
    'e' :: (toString (point - 1)).toList

def text (d : Decimal) : List Char :=
  if -3 ≤ d.point ∧ d.point ≤ 16 then positional d.digits d.point
  else scientific d.digits d.point

end Decimal

/-- The sign of a zero is shown and the sign of a NaN is not. -/
def Binary64.display (x : Binary64) : String :=
  if x.isNaN then "NaN"
  else
    let magnitude :=
      if x.isInfinite then "inf"
      else if x.isZero then "0.0"
      else String.ofList x.shortest.text
    if x.isNegative then "-" ++ magnitude else magnitude

end LoxScan.Number
