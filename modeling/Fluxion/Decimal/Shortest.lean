import Fluxion.Decimal.Exact

/-!
# The shortest decimal that reads back

Every decimal in an interval around a floating-point number reads back as that number. The text of
a literal uses the fewest digits for which the interval holds a decimal, and of the decimals with so
many digits the nearest. It is written without an exponent, however large or small the number is.

For a given number of digits only the two neighbors of the number on the grid of such decimals need
to be looked at: if the interval holds any decimal of the grid, it holds one of the two.

## Main definitions

* `Interval`: the bounds, in quarters of the last binary place.
* `Decimal.shortest`: the decimal.
* `Decimal.positional`: digits, with a point where it belongs.
* `Decimal.literal`: the text of a literal.
-/

namespace Fluxion

/-- The numbers that read back as `mantissa * 2 ^ exponent`, with bounds in units of
`2 ^ (exponent - 2)`. The bounds themselves read back if the mantissa is even. -/
structure Interval where
  low : Nat
  high : Nat
  closed : Bool
  unit : Int
deriving DecidableEq, Repr

/-- The gap below a power of two is half as wide as the one above it, except at the bottom of the
range. -/
def Interval.around (mantissa : Nat) (exponent : Int) : Interval where
  low := if mantissa = hiddenBit ∧ -1074 < exponent then 4 * mantissa - 1 else 4 * mantissa - 2
  high := 4 * mantissa + 2
  closed := mantissa % 2 == 0
  unit := exponent - 2

namespace Decimal

/-- `d` is at most `m * 2 ^ unit`; strictly less if `strict`. -/
def below (strict : Bool) (d : Decimal) (m : Nat) (unit : Int) : Bool :=
  let (num, den) := quotientOf d.digits 10 d.exponent
  let (boundNum, boundDen) := quotientOf m 2 unit
  if strict then num * boundDen < boundNum * den else num * boundDen ≤ boundNum * den

/-- `d` lies in the interval. -/
def inside (i : Interval) (d : Decimal) : Bool :=
  below (!i.closed) d i.high i.unit && !below i.closed d i.low i.unit

/-- The nearer neighbor of `num / den` inside the interval among decimals with `count` digits, of two
equally near ones the larger. -/
def candidate (i : Interval) (num den count : Nat) : Option Decimal :=
  let unit := leadingExponent num den - (count - 1 : Nat)
  let (unitsNum, unitsDen) := inUnits num den unit
  let low : Decimal := ⟨unitsNum / unitsDen, unit⟩
  let high : Decimal := ⟨unitsNum / unitsDen + 1, unit⟩
  match inside i low, inside i high with
  | true, true => some (if 2 * (unitsNum % unitsDen) < unitsDen then low else high)
  | true, false => some low
  | false, true => some high
  | false, false => none

/-- The shortest decimal that reads back as `mantissa * 2 ^ exponent`, the nearest of its length.
Seventeen digits always suffice. -/
def shortest (mantissa : Nat) (exponent : Int) : Decimal :=
  let (num, den) := quotientOf mantissa 2 exponent
  let i := Interval.around mantissa exponent
  ((List.range 17).findSome? fun k => candidate i num den (k + 1)).getD (nearest 17 num den)

/-- The digits of a decimal without an exponent, and without zeros at the end of a fraction. -/
def positional (d : Decimal) : String :=
  let digits := digitsOf d.digits
  match d.exponent with
  | .ofNat zeros => String.ofList (digits ++ List.replicate zeros '0')
  | .negSucc places =>
    let padded := List.replicate (places + 2 - digits.length) '0' ++ digits
    let whole := padded.take (padded.length - (places + 1))
    match dropZeros (padded.drop (padded.length - (places + 1))) with
    | [] => String.ofList whole
    | fraction => String.ofList (whole ++ '.' :: fraction)

/-- Whole numbers below this bound are written as such. -/
def wholeBound : Nat := 1000000000000000

/-- The whole number below `wholeBound` that `num / den` is, if it is one. -/
def whole? (num den : Nat) : Option Nat :=
  if num % den = 0 ∧ num / den < wholeBound then some (num / den) else none

/-- The text of a literal. A zero has no sign. -/
def literal (x : Float) : String :=
  match FloatParts.of x with
  | .nan => "NaN"
  | .infinite negative => if negative then "-inf" else "inf"
  | .finite negative mantissa exponent =>
    let (num, den) := quotientOf mantissa 2 exponent
    if mantissa = 0 then "0"
    else
      let size := match whole? num den with
        | some n => toString n
        | none => positional (shortest mantissa exponent)
      if negative then "-" ++ size else size

end Decimal

end Fluxion
