/-!
# Exact values of floating-point numbers, and decimals near them

A finite number is a natural number times a power of two. All decimal texts are made from these two
numbers by exact arithmetic, never by arithmetic on floating-point numbers.

## Main definitions

* `FloatParts`: what a number is; `FloatParts.of` reads it off the bits.
* `Decimal`: a natural number times a power of ten.
* `roundHalfEven`: the nearest natural number to a quotient, a tie going to the even one.
* `Decimal.nearest`: the decimal with a given number of digits that is nearest to a quotient.
* `Decimal.scientific`: one digit, the further digits after a point, and the exponent.
-/

namespace Fluxion

/-- What a floating-point number is. A finite one is `mantissa * 2 ^ exponent`. -/
inductive FloatParts where
  | nan
  | infinite (negative : Bool)
  | finite (negative : Bool) (mantissa : Nat) (exponent : Int)
deriving DecidableEq, Repr

/-- The leading bit of the mantissa of a normal number. It is not among the 64 bits. -/
def hiddenBit : Nat := 1 <<< 52

/-- The bits of the exponent field when all are set. -/
def lastField : Nat := 2047

/-- Sign, exponent field and fraction field of the 64 bits, decoded. -/
def FloatParts.of (x : Float) : FloatParts :=
  let bits := x.toBits.toNat
  let negative := bits >>> 63 == 1
  let field : Nat := (bits >>> 52) % (lastField + 1)
  let fraction : Nat := bits % hiddenBit
  if field = lastField then if fraction = 0 then .infinite negative else .nan
  else if field = 0 then .finite negative fraction (-1074)
  else .finite negative (hiddenBit + fraction) ((field : Int) - 1075)

/-- `mantissa * base ^ exponent` as a quotient of natural numbers. -/
def quotientOf (mantissa base : Nat) (exponent : Int) : Nat × Nat :=
  (mantissa * Nat.pow base exponent.toNat, Nat.pow base (-exponent).toNat)

/-- The nearest natural number to `num / den`; of two equally near ones the even one. -/
def roundHalfEven (num den : Nat) : Nat :=
  let low := num / den
  let rest := 2 * (num % den)
  if rest < den then low
  else if den < rest then low + 1
  else if low % 2 = 0 then low
  else low + 1

/-- The decimal digits of a natural number. -/
def digitsOf (n : Nat) : List Char := Nat.toDigits 10 n

/-- The exponent of the largest power of ten that does not exceed `num / den`, for positive
arguments. The digit counts of both leave two candidates. -/
def leadingExponent (num den : Nat) : Int :=
  let guess : Int := (digitsOf num).length - (digitsOf den).length
  let (powNum, powDen) := quotientOf 1 10 guess
  if powNum * den ≤ num * powDen then guess else guess - 1

/-- A natural number times a power of ten. -/
structure Decimal where
  digits : Nat
  exponent : Int
deriving DecidableEq, Repr

namespace Decimal

/-- `num / den` in units of `10 ^ exponent`, as a quotient. -/
def inUnits (num den : Nat) (exponent : Int) : Nat × Nat :=
  (num * Nat.pow 10 (-exponent).toNat, den * Nat.pow 10 exponent.toNat)

/-- The decimal with `count` digits nearest to `num / den`, for positive arguments. -/
def nearest (count num den : Nat) : Decimal :=
  let unit := leadingExponent num den - (count - 1 : Nat)
  let (unitsNum, unitsDen) := inUnits num den unit
  ⟨roundHalfEven unitsNum unitsDen, unit⟩

/-- Drop the zeros at the end of a list of digits. -/
def dropZeros (digits : List Char) : List Char :=
  (digits.reverse.dropWhile (· == '0')).reverse

/-- One digit, a point and the further digits up to the last that is not zero, and the exponent of
the first. -/
def scientificText (d : Decimal) : String :=
  match digitsOf d.digits with
  | [] => ""
  | first :: rest =>
    let fraction := match dropZeros rest with
      | [] => []
      | kept => '.' :: kept
    String.ofList (first :: fraction) ++ "e" ++ toString (d.exponent + rest.length)

/-- A number rounded to `count` digits, a tie going to the even digit. -/
def scientific (count : Nat) (x : Float) : String :=
  match FloatParts.of x with
  | .nan => "NaN"
  | .infinite negative => if negative then "-inf" else "inf"
  | .finite negative mantissa exponent =>
    let (num, den) := quotientOf mantissa 2 exponent
    let size := if mantissa = 0 then "0e0" else (nearest count num den).scientificText
    if negative then "-" ++ size else size

/-- Numbers are reported with thirteen digits. -/
def reportedDigits : Nat := 13

/-- The text of a number in a report. -/
def report (x : Float) : String := scientific reportedDigits x

end Decimal

end Fluxion
