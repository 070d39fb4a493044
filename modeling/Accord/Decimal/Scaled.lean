/-!
# Reading decimals by scaling

A decimal is read in two steps.  First its digits are gathered into a word of 64
bits, as far as they fit; digits that do not fit only count as places.  Then the
word is scaled by a power of ten in binary arithmetic.

* `gatherDigits` takes the digits that fit.
* `Decimal.ofParts` is a word and a power of ten for a written number.
* `Decimal.toFloat?` is their product or quotient.

Up to three steps round: the word to a binary number, the power of ten, and their
product or quotient.  So the number found may be a neighbour of the nearest one.
-/

namespace Accord

/-- The value of a decimal digit. -/
def digitValue (c : Char) : Nat :=
  c.toNat - '0'.toNat

/-- Appends digits to a number while it fits a word of 64 bits; what is left starts with
the first digit that does not fit. -/
def gatherDigits : Nat → List Char → Nat × List Char
  | value, [] => (value, [])
  | value, c :: rest =>
    let next := value * 10 + digitValue c
    if next < UInt64.size then gatherDigits next rest else (value, c :: rest)

/-- A number `digits` · 10 ^ `power`. -/
structure Decimal where
  digits : Nat
  power : Int

/-- The decimal with the given digits before and behind the point, times a power of ten.
Digits before the point that do not fit still count as places, and those behind the point
are lost. -/
def Decimal.ofParts (whole fraction : List Char) (power : Int) : Decimal :=
  let (front, uncounted) := gatherDigits 0 whole
  let (digits, lost) := gatherDigits front fraction
  { digits
    power := power + uncounted.length - (fraction.length - lost.length : Nat) }

/-- The greatest power of ten that is a binary number. -/
def greatestPower : Nat := 308

/-- The binary number nearest to a power of ten. -/
def tenToThe (power : Nat) : Float :=
  Float.ofScientific 1 false power

/-- The binary value of a decimal; nothing if it is out of range.  Below the range of
powers of ten the quotient is taken in two steps, and is zero if these do not suffice. -/
def Decimal.toFloat? (decimal : Decimal) : Option Float :=
  let value := Float.ofNat decimal.digits
  match decimal.power with
  | .ofNat power =>
    if decimal.digits = 0 then some 0
    else if power ≤ greatestPower then
      let product := value * tenToThe power
      if product.isInf then none else some product
    else none
  | .negSucc below =>
    let power := below + 1
    if power ≤ greatestPower then some (value / tenToThe power)
    else if power ≤ 2 * greatestPower then
      some (value / tenToThe greatestPower / tenToThe (power - greatestPower))
    else some 0

end Accord
