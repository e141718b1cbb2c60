import Fluxion.Decimal.Exact

/-!
# Numbers with all their signs

Every floating-point number has a sign, an undefined one (NaN) too. `Float` has a single undefined
number, but constants are told apart by their bits, so here there are two.

Few rules say which of them a result is. An operation on defined operands that has no defined result
gives the negative one. An operation on undefined operands gives the first of these back. Negation
turns the sign round, and a power with an odd integer as exponent takes it away.

The sign is all that is kept of an undefined number. It has other bits, its payload, by which constants
could be told apart as well; here two undefined constants of one sign are the same constant. Operations
on defined numbers make one payload only, so a difference takes a constant that was written down with
another one.

## Main definitions

* `Binary64`: floating-point numbers, with two undefined ones; `Binary64.value` forgets the sign.
* `Binary64.neg`, `Binary64.map`, `Binary64.map₂`, `Binary64.pow`: operations on them.

## Main statements

* `Binary64.isNaN_map`, `Binary64.isNaN_map₂`: which results are undefined.
* `Binary64.value_map`, `Binary64.value_map₂`: all others are those on `Float`.
-/

namespace Fluxion

/-- Floating-point numbers. The undefined number of `Float` stands for the positive one. -/
inductive Binary64 where
  | ofFloat (x : Float)
  | negativeNaN
deriving DecidableEq, Repr

namespace Binary64

instance instCoeFloat : Coe Float Binary64 := ⟨ofFloat⟩

instance instOfScientific : OfScientific Binary64 :=
  ⟨fun mantissa negative exponent => ofFloat (OfScientific.ofScientific mantissa negative exponent)⟩

/-- The positive undefined number. -/
def positiveNaN : Binary64 := ofFloat (0.0 / 0.0)

/-- The number without the sign of an undefined one. -/
def value : Binary64 → Float
  | ofFloat x => x
  | negativeNaN => 0.0 / 0.0

/-- The number is undefined. -/
def isNaN (x : Binary64) : Bool := x.value.isNaN

/-- The number is an odd integer. -/
def isOdd (x : Binary64) : Bool :=
  match FloatParts.of x.value with
  | .finite _ mantissa exponent =>
    let places := (-exponent).toNat
    exponent ≤ 0 && mantissa >>> places <<< places == mantissa && (mantissa >>> places) % 2 == 1
  | .nan | .infinite _ => false

/-! ### Operations -/

/-- The number of the other sign. -/
def neg : Binary64 → Binary64
  | ofFloat x => if x.isNaN then negativeNaN else ofFloat (-x)
  | negativeNaN => positiveNaN

instance instNeg : Neg Binary64 := ⟨neg⟩

/-- What an operation on defined operands gives. -/
def ofResult (x : Float) : Binary64 := if x.isNaN then negativeNaN else ofFloat x

/-- An operation on one operand. -/
def map (f : Float → Float) (x : Binary64) : Binary64 :=
  if x.isNaN then x else ofResult (f x.value)

/-- An operation on two operands. -/
def map₂ (f : Float → Float → Float) (x y : Binary64) : Binary64 :=
  if x.isNaN then x else if y.isNaN then y else ofResult (f x.value y.value)

/-- A power. It may be defined although an operand is not: with exponent 0, and with base 1. -/
def pow (x y : Binary64) : Binary64 :=
  let result := x.value.pow y.value
  if !result.isNaN then ofFloat result
  else if x.isNaN && y.isOdd then positiveNaN
  else map₂ Float.pow x y

theorem isNaN_negativeNaN : negativeNaN.isNaN = true := by decide

@[simp] theorem isNaN_ofResult (x : Float) : (ofResult x).isNaN = x.isNaN := by
  unfold ofResult
  split
  · rename_i h
    rw [isNaN_negativeNaN, h]
  · rfl

theorem value_ofResult {x : Float} (h : x.isNaN = false) : (ofResult x).value = x := by
  rw [ofResult, h]
  rfl

@[simp] theorem isNaN_map (f : Float → Float) (x : Binary64) :
    (x.map f).isNaN = (x.isNaN || (f x.value).isNaN) := by
  unfold map
  cases h : x.isNaN <;> simp [h]

@[simp] theorem isNaN_map₂ (f : Float → Float → Float) (x y : Binary64) :
    (map₂ f x y).isNaN = (x.isNaN || y.isNaN || (f x.value y.value).isNaN) := by
  unfold map₂
  cases hx : x.isNaN <;> cases hy : y.isNaN <;> simp [hx, hy]

theorem value_map {f : Float → Float} {x : Binary64} (h : (x.map f).isNaN = false) :
    (x.map f).value = f x.value := by
  rw [isNaN_map, Bool.or_eq_false_iff] at h
  rw [map, h.1]
  exact value_ofResult h.2

theorem value_map₂ {f : Float → Float → Float} {x y : Binary64} (h : (map₂ f x y).isNaN = false) :
    (map₂ f x y).value = f x.value y.value := by
  rw [isNaN_map₂, Bool.or_eq_false_iff, Bool.or_eq_false_iff] at h
  rw [map₂, h.1.1, h.1.2]
  exact value_ofResult h.2

end Binary64

end Fluxion
