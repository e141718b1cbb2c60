import Fluxion.Operation

/-!
# Algebras of values

A straight-line program can be run over numbers, over expressions of a graph, or over sets of
inputs that a value depends on. What such a run needs is collected in `Algebra`: a value for each
constant, and a value for each operation on values. The operations live in a monad, because on
expressions they add nodes to a graph and may fail.

The partial derivatives of the operations are written once, over any algebra. So the same rules
build derivative expressions and compute derivative numbers.

## Main definitions

* `Algebra`: constants and operations on values of some type, in some monad.
* `unaryPartial`, `binaryPartial`: partial derivatives from operands and result.
* `floatAlgebra`: numbers.
* `dependencyAlgebra`: sets of input components, as the bits of a number.
-/

namespace Fluxion

/-- Constants and operations on values of type `V`, performed in `m`. -/
structure Algebra (m : Type → Type) (V : Type) where
  constant : Binary64 → m V
  unary : UnaryOp → V → m V
  binary : BinaryOp → V → V → m V
  /-- The value is known to be zero, so that a sweep may skip its contributions. -/
  isZero : V → Bool

section Partials

variable {m : Type → Type} [Monad m] {V : Type}

/-- The derivative of `op` at `x`, where `f` is the result. -/
def unaryPartial (A : Algebra m V) (op : UnaryOp) (x f : V) : m V :=
  match op with
  | .neg => A.constant (-1.0)
  | .sqrt => do
    let half ← A.constant 0.5
    A.binary .div half f
  | .sin => A.unary .cos x
  | .cos => do
    let s ← A.unary .sin x
    A.unary .neg s
  | .tan => do
    let one ← A.constant 1.0
    let square ← A.binary .mul f f
    A.binary .add one square
  | .exp => pure f
  | .log => do
    let one ← A.constant 1.0
    A.binary .div one x
  | .tanh => do
    let one ← A.constant 1.0
    let square ← A.binary .mul f f
    A.binary .sub one square

/-- The derivative of `op` at `x` and `y` in one of them, where `f` is the result. -/
def binaryPartial (A : Algebra m V) (op : BinaryOp) (side : Side) (x y f : V) : m V :=
  match op, side with
  | .add, _ => A.constant 1.0
  | .sub, .left => A.constant 1.0
  | .sub, .right => A.constant (-1.0)
  | .mul, .left => pure y
  | .mul, .right => pure x
  | .div, .left => do
    let one ← A.constant 1.0
    A.binary .div one y
  | .div, .right => do
    let quotient ← A.binary .div f y
    A.unary .neg quotient
  | .pow, .left => do
    let one ← A.constant 1.0
    let exponent ← A.binary .sub y one
    let power ← A.binary .pow x exponent
    A.binary .mul y power
  | .pow, .right => do
    let l ← A.unary .log x
    A.binary .mul f l

end Partials

/-- Numbers. No number counts as known to be zero, because a zero still turns infinities and
undefined values into undefined values. -/
def floatAlgebra : Algebra Id Binary64 where
  constant := fun v => v
  unary := fun op x => op.apply x
  binary := fun op x y => op.apply x y
  isZero := fun _ => false

/-- Sets of input components, component `k` being bit `k`. A constant depends on nothing, and a
result on all that its operands depend on. -/
def dependencyAlgebra : Algebra Id Nat where
  constant := fun _ => 0
  unary := fun _ x => x
  binary := fun _ x y => x ||| y
  isZero := fun _ => false

/-- The set that holds component `k` alone. -/
def dependsOn (k : Nat) : Nat := 1 <<< k

end Fluxion
