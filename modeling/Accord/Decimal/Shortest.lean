/-!
# Shortest decimals of binary numbers

A number of 64 bits in binary floating point stands for the reals that round to
it.  Its shortest decimal is the one with the fewest digits among these, and of
several the nearest to the number.

* `Binary64` is a positive number m · 2^q, read off the bits.
* `Binary64.digits` finds its shortest decimal: it tries ever finer decimal
  grids, in exact arithmetic, until one of the two neighbours of the number on
  the grid rounds to the number.
* `DecimalStyle.render` writes a number in positional or in scientific notation,
  as the style says.
-/

namespace Accord

/-- A power with an exponent of either sign, as numerator and denominator. -/
def powerFraction (base : Nat) (exponent : Int) : Nat × Nat :=
  if exponent ≥ 0 then (base.pow exponent.toNat, 1) else (1, base.pow (-exponent).toNat)

/-- A positive number `mantissa` · 2 ^ `exponent`. -/
structure Binary64 where
  mantissa : Nat
  exponent : Int
  /-- Whether the next number below is only half as far away as the next one above. -/
  narrowBelow : Bool

namespace Binary64

/-- The magnitude of a finite number other than zero. -/
def ofFloat (value : Float) : Binary64 :=
  let bits := value.toBits.toNat
  let hidden := Nat.pow 2 52
  let fraction : Nat := bits % hidden
  let biased : Nat := bits / hidden % Nat.pow 2 11
  if biased = 0 then
    { mantissa := fraction, exponent := -1074, narrowBelow := false }
  else
    { mantissa := fraction + hidden
      exponent := (biased : Int) - 1075
      narrowBelow := fraction == 0 && biased > 1 }

/-- Whether the decimal `digits` · 10 ^ `power` rounds to the number.  The ends of the
interval of such decimals belong to it when the mantissa is even. -/
def holds (number : Binary64) (digits : Nat) (power : Int) : Bool :=
  let (up, down) := powerFraction 2 number.exponent
  let (tens, tenths) := powerFraction 10 power
  let decimal := 4 * digits * tens * down
  let below := (4 * number.mantissa - if number.narrowBelow then 1 else 2) * up * tenths
  let above := (4 * number.mantissa + 2) * up * tenths
  if number.mantissa % 2 = 0 then below ≤ decimal && decimal ≤ above
  else below < decimal && decimal < above

/-- The whole number of units of 10 ^ `power` in the number, and whether what is left
over is more than half a unit, or half a unit above an odd number of units. -/
def quotient (number : Binary64) (power : Int) : Nat × Bool :=
  let (up, down) := powerFraction 2 number.exponent
  let (tens, tenths) := powerFraction 10 power
  let whole := number.mantissa * up * tenths
  let unit := down * tens
  let count := whole / unit
  let rest := 2 * (whole % unit)
  (count, rest > unit || (rest == unit && count % 2 == 1))

/-- Looks for the power of ten of the leading digit from below. -/
def leadingPowerFrom (number : Binary64) : Nat → Int → Int
  | 0, power => power
  | steps + 1, power =>
    if (number.quotient (power + 1)).1 = 0 then power
    else number.leadingPowerFrom steps (power + 1)

/-- The power of ten of the leading digit. -/
def leadingPower (number : Binary64) : Int :=
  number.leadingPowerFrom 640 (-326)

/-- A decimal on the grid of 10 ^ `power` that rounds to the number, the nearer one if
both neighbours do. -/
def onGrid? (number : Binary64) (power : Int) : Option Nat :=
  let (count, up) := number.quotient power
  let near := if up then count + 1 else count
  let far := if up then count else count + 1
  if number.holds near power then some near
  else if number.holds far power then some far
  else none

/-- Tries grids from the coarsest on. -/
def shortestFrom (number : Binary64) : Nat → Int → Nat × Int
  | 0, power => ((number.quotient power).1, power)
  | steps + 1, power =>
    match number.onGrid? power with
    | some digits => (digits, power)
    | none => number.shortestFrom steps (power - 1)

/-- The digits of the shortest decimal, without zeros at the end, and the power of ten of
the first of them. -/
def digits (number : Binary64) : List Char × Int :=
  let (count, power) := number.shortestFrom 20 number.leadingPower
  let written := (toString count).toList
  let significant := (written.reverse.dropWhile (· == '0')).reverse
  (significant, power + (written.length : Int) - 1)

end Binary64

/-- Digits around a decimal point; `power` is the power of ten of the first digit. -/
def positional (digits : List Char) (power : Int) : String :=
  if power < 0 then
    "0." ++ String.ofList (List.replicate (-power - 1).toNat '0' ++ digits)
  else
    let whole := power.toNat + 1
    let front := digits.take whole ++ List.replicate (whole - digits.length) '0'
    let back := digits.drop whole
    String.ofList front ++ "." ++ (if back.isEmpty then "0" else String.ofList back)

/-- One digit before the point and a signed power of ten behind the others. -/
def scientific (digits : List Char) (power : Int) : String :=
  let sign := if power < 0 then "-" else "+"
  let front := String.ofList (digits.take 1)
  let back := digits.drop 1
  let point := if back.isEmpty then "" else "." ++ String.ofList back
  front ++ point ++ "e" ++ sign ++ toString power.natAbs

/-- Which numbers are written in positional notation: those whose leading digit stands for
a power of ten within the bounds. -/
structure DecimalStyle where
  least : Int
  greatest : Int

/-- The shortest text of a finite number.  Zero keeps its sign. -/
def DecimalStyle.render (style : DecimalStyle) (value : Float) : String :=
  let negative := value.toBits.toNat / Nat.pow 2 63 == 1
  let sign := if negative then "-" else ""
  if value == 0 then sign ++ "0.0"
  else
    let (digits, power) := (Binary64.ofFloat value).digits
    sign ++ (if style.least ≤ power && power ≤ style.greatest then positional digits power
      else scientific digits power)

end Accord
