import Fluxion.Sweep.Directions
import Fluxion.Tape.Scalar

/-!
# Sweeps over scalar tapes

A forward sweep runs a tape and carries along, for each of several directions, the derivative of
every value when the inputs move in that direction. A reverse sweep runs the tape and then goes
back over it, carrying for each direction the derivative of a weighted sum of the outputs in every
value.

Both work over any algebra: over numbers they compute derivatives, over expressions they build
them. A contribution from a value that is known to be zero is left out, and the partial derivatives
of an instruction are made when the first direction needs them and used again for the others.

## Main definitions

* `ScalarTape.forward`: outputs, and their derivatives in each direction.
* `ScalarTape.reverse`: outputs, and the derivatives in the inputs for each direction.
-/

namespace Fluxion

namespace ScalarTape

variable {m : Type → Type} [Monad m] {V : Type}

/-! ### Forward -/

/-- A direction of a forward sweep: how the inputs move, the derivatives in the slots, and those of
the outputs. -/
structure Tangent (V : Type) where
  seed : Grid V
  run : Run V

namespace Tangent

/-- The derivative in a slot. -/
def read (t : Tangent V) (zero : V) (slot : Nat) : V := t.run.read zero slot

/-- Write the derivative in a slot. -/
def write (t : Tangent V) (slot : Nat) (v : V) : Tangent V := { t with run := t.run.write slot v }

end Tangent

/-- Add `p * t` to what the operands so far contribute. `made` is `p`, if it has been made. -/
def contribute (A : Algebra m V) (partialOf : m V) (made : Option V) (t : V) (sum : Option V) :
    m (Option V × Option V) :=
  if A.isZero t then pure (made, sum)
  else do
    let p ← onDemand made partialOf
    let term ← A.binary .mul p t
    match sum with
    | none => return (some p, some term)
    | some s => return (some p, some (← A.binary .add s term))

/-- The derivative of a result on one operand, in one direction. -/
def pushUnary (A : Algebra m V) (zero : V) (op : UnaryOp) (x f : V) (a result : Nat)
    (made : Option V) (t : Tangent V) : m (Option V × Tangent V) := do
  let (made, sum) ← contribute A (unaryPartial A op x f) made (t.read zero a) none
  return (made, t.write result (sum.getD zero))

/-- The derivative of a result on two operands, in one direction. -/
def pushBinary (A : Algebra m V) (zero : V) (op : BinaryOp) (x y f : V) (a b result : Nat)
    (made : Option V × Option V) (t : Tangent V) : m ((Option V × Option V) × Tangent V) := do
  let (left, sum) ← contribute A (binaryPartial A op .left x y f) made.1 (t.read zero a) none
  let (right, sum) ← contribute A (binaryPartial A op .right x y f) made.2 (t.read zero b) sum
  return ((left, right), t.write result (sum.getD zero))

/-- Carry out one instruction, in values and in all directions. -/
def forwardStep (A : Algebra m V) (zero : V) (inputs : Grid V) (free : Array V)
    (state : Run V × List (Tangent V)) (instr : ScalarInstr) : m (Run V × List (Tangent V)) :=
  let (r, tangents) := state
  match instr with
  | .input i k result =>
    pure (r.write result (inputs.read zero i k),
      tangents.map fun t => t.write result (t.seed.read zero i k))
  | .output i k a =>
    pure (r.store i k (r.read zero a),
      tangents.map fun t => { t with run := t.run.store i k (t.read zero a) })
  | .constant v result => do
    return (r.write result (← A.constant v), tangents.map (·.write result zero))
  | .free k result =>
    pure (r.write result (free.getD k zero), tangents.map (·.write result zero))
  | .unary op a result => do
    let x := r.read zero a
    let f ← A.unary op x
    return (r.write result f, ← inTurn (pushUnary A zero op x f a result) none tangents)
  | .binary op a b result => do
    let x := r.read zero a
    let y := r.read zero b
    let f ← A.binary op x y
    return (r.write result f,
      ← inTurn (pushBinary A zero op x y f a b result) (none, none) tangents)

/-- The outputs, and for each direction in which the inputs move the derivatives of the outputs. -/
def forward (tape : ScalarTape) (A : Algebra m V) (inputs : Bundle V) (free : List V)
    (seeds : List (Bundle V)) (outputCounts : List Nat) : m (Bundle V × List (Bundle V)) := do
  let zero ← A.constant 0.0
  let start := Run.start zero tape.workSize outputCounts
  let (r, tangents) ← tape.instrs.foldlM (forwardStep A zero (.ofBundle inputs) free.toArray)
    (start, seeds.map fun seed => ⟨.ofBundle seed, start⟩)
  return (r.outputs.toBundle, tangents.map (·.run.outputs.toBundle))

/-! ### Reverse -/

/-- The operands and the result of an instruction, as far as it has them. -/
structure Record (V : Type) where
  x : V
  y : V
  f : V

/-- Carry out one instruction, and put what it worked on in front of the records. -/
def recordStep (A : Algebra m V) (zero : V) (inputs : Grid V) (free : Array V)
    (state : Run V × List (ScalarInstr × Record V)) (instr : ScalarInstr) :
    m (Run V × List (ScalarInstr × Record V)) :=
  let (r, records) := state
  match instr with
  | .unary op a result => do
    let x := r.read zero a
    let f ← A.unary op x
    return (r.write result f, (instr, ⟨x, zero, f⟩) :: records)
  | .binary op a b result => do
    let x := r.read zero a
    let y := r.read zero b
    let f ← A.binary op x y
    return (r.write result f, (instr, ⟨x, y, f⟩) :: records)
  | _ => do return (← exec A zero inputs free r instr, (instr, ⟨zero, zero, zero⟩) :: records)

/-- A direction of a reverse sweep: the weights of the outputs, the derivatives in the slots, and
those in the inputs. -/
structure Adjoint (V : Type) where
  seed : Grid V
  run : Run V

namespace Adjoint

/-- The derivative in a slot. -/
def read (d : Adjoint V) (zero : V) (slot : Nat) : V := d.run.read zero slot

/-- Write the derivative in a slot. -/
def write (d : Adjoint V) (slot : Nat) (v : V) : Adjoint V := { d with run := d.run.write slot v }

/-- Add to the derivative in a slot. -/
def add (A : Algebra m V) (zero : V) (d : Adjoint V) (slot : Nat) (term : V) : m (Adjoint V) := do
  return d.write slot (← A.binary .add (d.read zero slot) term)

end Adjoint

/-- Add `p * s` to the derivative in a slot. `made` is `p`, if it has been made. -/
def giveBack (A : Algebra m V) (zero : V) (partialOf : m V) (made : Option V) (s : V) (slot : Nat)
    (d : Adjoint V) : m (Option V × Adjoint V) := do
  let p ← onDemand made partialOf
  let term ← A.binary .mul p s
  return (some p, ← d.add A zero slot term)

/-- Go back over an operation on one operand, in one direction. -/
def pullUnary (A : Algebra m V) (zero : V) (op : UnaryOp) (record : Record V) (a result : Nat)
    (made : Option V) (d : Adjoint V) : m (Option V × Adjoint V) :=
  let s := d.read zero result
  let d := d.write result zero
  if A.isZero s then pure (made, d)
  else giveBack A zero (unaryPartial A op record.x record.f) made s a d

/-- Go back over an operation on two operands, in one direction. -/
def pullBinary (A : Algebra m V) (zero : V) (op : BinaryOp) (record : Record V) (a b result : Nat)
    (made : Option V × Option V) (d : Adjoint V) : m ((Option V × Option V) × Adjoint V) :=
  let s := d.read zero result
  let d := d.write result zero
  if A.isZero s then pure (made, d)
  else do
    let (left, d) ←
      giveBack A zero (binaryPartial A op .left record.x record.y record.f) made.1 s a d
    let (right, d) ←
      giveBack A zero (binaryPartial A op .right record.x record.y record.f) made.2 s b d
    return ((left, right), d)

/-- Go back over one instruction, in all directions. -/
def reverseStep (A : Algebra m V) (zero : V) (adjoints : List (Adjoint V))
    (entry : ScalarInstr × Record V) : m (List (Adjoint V)) :=
  let (instr, record) := entry
  match instr with
  | .output i k a =>
    adjoints.mapM fun d =>
      let s := d.seed.read zero i k
      if A.isZero s then pure d else d.add A zero a s
  | .input i k result =>
    pure <| adjoints.map fun d =>
      { d with run := (d.run.store i k (d.read zero result)).write result zero }
  | .constant _ result | .free _ result => pure (adjoints.map (·.write result zero))
  | .unary op a result => inTurn (pullUnary A zero op record a result) none adjoints
  | .binary op a b result => inTurn (pullBinary A zero op record a b result) (none, none) adjoints

/-- The outputs, and for each direction, which weighs the outputs, the derivatives in the inputs. -/
def reverse (tape : ScalarTape) (A : Algebra m V) (inputs : Bundle V) (free : List V)
    (seeds : List (Bundle V)) (inputCounts outputCounts : List Nat) :
    m (Bundle V × List (Bundle V)) := do
  let zero ← A.constant 0.0
  let (r, records) ← tape.instrs.foldlM (recordStep A zero (.ofBundle inputs) free.toArray)
    (Run.start zero tape.workSize outputCounts, [])
  let start := Run.start zero tape.workSize inputCounts
  let adjoints ← records.foldlM (reverseStep A zero)
    (seeds.map fun seed => ⟨.ofBundle seed, start⟩)
  return (r.outputs.toBundle, adjoints.map (·.run.outputs.toBundle))

end ScalarTape

end Fluxion
