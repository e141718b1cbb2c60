import Fluxion.Expression.Scalar
import Fluxion.Schedule.Steps

/-!
# Scalar tapes

A function of scalar expressions is compiled into a tape: a straight-line program that loads inputs
into work slots, computes on slots, and stores slots into outputs. Every expression that the outputs
need is computed once, after its operands. A symbol that is no input is free, and its value is
loaded from a list of its own.

A tape needs no graph to run, and it runs over any algebra. Running it over sets of input components
tells which of them an output depends on.

## Main definitions

* `ScalarInstr`, `ScalarTape`: instructions and tapes.
* `ScalarTape.compile`: the tape of a list of outputs.
* `ScalarTape.replay`: the outputs of a tape over an algebra.
* `ScalarTape.dependencies`: the components of an input that an output depends on.
-/

namespace Fluxion

/-- Values of several matrices, each as its nonzeros. -/
abbrev Bundle (V : Type) := List (List V)

/-- A bundle, laid out for access by number. -/
abbrev Grid (V : Type) := Array (Array V)

namespace Grid

variable {V : Type}

/-- The values of a bundle. -/
def ofBundle (values : Bundle V) : Grid V := (values.map List.toArray).toArray

/-- The values as a bundle. -/
def toBundle (grid : Grid V) : Bundle V := grid.toList.map Array.toList

/-- The same value everywhere. -/
def fill (v : V) (counts : List Nat) : Grid V := (counts.map (Array.replicate · v)).toArray

/-- Value `k` of matrix `i`, `zero` if there is none. -/
def read (zero : V) (grid : Grid V) (i k : Nat) : V := (grid.getD i #[]).getD k zero

/-- Put a value in the place of value `k` of matrix `i`. -/
def store (grid : Grid V) (i k : Nat) (v : V) : Grid V := grid.modify i (·.setIfInBounds k v)

theorem read_ofBundle (zero : V) (values : Bundle V) (i k : Nat) :
    (ofBundle values).read zero i k = (values.getD i []).getD k zero := by
  simp only [read, ofBundle, Array.getD_eq_getD_getElem?, List.getD_eq_getElem?_getD,
    List.getElem?_toArray, List.getElem?_map]
  cases values[i]? <;> simp

@[simp] theorem toBundle_ofBundle (values : Bundle V) : (ofBundle values).toBundle = values := by
  simp [ofBundle, toBundle, List.map_map, Function.comp_def]

end Grid

/-- An instruction of a scalar tape. -/
inductive ScalarInstr where
  /-- Load value `nonzero` of input `index`. -/
  | input (index nonzero result : Nat)
  | constant (value : Binary64) (result : Nat)
  /-- Load the value of free symbol `number`. -/
  | free (number result : Nat)
  | unary (op : UnaryOp) (a result : Nat)
  | binary (op : BinaryOp) (a b result : Nat)
  /-- Store into value `nonzero` of output `index`. -/
  | output (index nonzero a : Nat)
deriving DecidableEq, Repr

/-- The instruction stores an output. -/
def ScalarInstr.isOutput : ScalarInstr → Bool
  | .output .. => true
  | _ => false

/-- A compiled function of scalar expressions. -/
structure ScalarTape where
  instrs : List ScalarInstr
  /-- The symbols that are no inputs, in the order in which they are met. -/
  freeSymbols : List ScalarId
  freeNames : List String
  workSize : Nat
deriving DecidableEq, Repr

namespace ScalarTape

/-! ### Compilation -/

/-- A value of a matrix among several, with its place. -/
structure Place where
  e : ScalarId
  index : Nat
  nonzero : Nat
deriving DecidableEq, Repr

/-- All values of several matrices, in order. -/
def places (matrices : List (SparseMatrix ScalarId)) : List Place :=
  matrices.zipIdx.flatMap fun (m, i) => m.values.zipIdx.map fun (e, k) => ⟨e, i, k⟩

/-- Inputs are symbols of the graph, and no two are the same. -/
def checkInputs (g : ScalarGraph) : NumberSet → List Place → Except Error Unit
  | _, [] => .ok ()
  | seen, p :: rest =>
    match g.node? p.e with
    | none => .error (.unknownExpression p.e.index)
    | some n =>
      if !n.isSymbol then .error (.notSymbolic p.index)
      else if seen.contains p.e.index then .error (.repeatedSymbol p.index)
      else checkInputs g (seen.insert p.e.index) rest

/-- The places at which each node is an input: one, or none. -/
def inputPlaces (g : ScalarGraph) (inputs : List Place) : Array (List Place) :=
  buckets g.size (inputs.map fun p => (p.e.index, p))

/-- The place at which an expression is an input. -/
def inputPlace? (inputs : Array (List Place)) (e : ScalarId) : Option Place :=
  (inputs.getD e.index []).head?

/-- The instruction of a step. -/
def instr (g : ScalarGraph) (inputs : Array (List Place)) (outputs : Array Place)
    (free : List ScalarId) (s : SlottedStep) : ScalarInstr :=
  match s.step with
  | .store root i =>
    let p := outputs.getD root ⟨⟨i⟩, 0, 0⟩
    .output p.index p.nonzero (s.argument 0)
  | .compute i =>
    let result := s.result.getD 0
    match g.node? ⟨i⟩ with
    | some (.literal v) => .constant v result
    | some (.unary op _) => .unary op (s.argument 0) result
    | some (.binary op _ _) => .binary op (s.argument 0) (s.argument 1) result
    | _ =>
      match inputPlace? inputs ⟨i⟩ with
      | some p => .input p.index p.nonzero result
      | none => .free (free.idxOf ⟨i⟩) result

/-- The tape that computes the outputs from the inputs. -/
def compile (g : ScalarGraph) (inputs outputs : List (SparseMatrix ScalarId)) :
    Except Error ScalarTape :=
  let ins := places inputs
  let outs := places outputs
  match checkInputs g .empty ins with
  | .error e => .error e
  | .ok () =>
    match g.unknown? (outs.map Place.e) with
    | some e => .error (.unknownExpression e.index)
    | none =>
      let schedule := Schedule.make g.operandNumbers g.size (outs.map (·.e.index))
      let table := inputPlaces g ins
      let free := (schedule.computed.map ScalarId.mk).filter fun e =>
        g.isSymbol e && (inputPlace? table e).isNone
      .ok {
        instrs := schedule.steps.map (instr g table outs.toArray free)
        freeSymbols := free
        freeNames := free.map fun e => (g.name? e).getD "?"
        workSize := schedule.workSize }

/-- The number of instructions that are no stores. -/
def countNodes (tape : ScalarTape) : Nat := tape.instrs.countP (!·.isOutput)

/-! ### Replay -/

section Replay

variable {m : Type → Type} [Monad m] {V : Type}

/-- Work slots and outputs of a run. -/
structure Run (V : Type) where
  slots : Array V
  outputs : Grid V

namespace Run

/-- A run that has done nothing: every slot and output is zero. -/
def start (zero : V) (workSize : Nat) (outputCounts : List Nat) : Run V :=
  ⟨Array.replicate workSize zero, Grid.fill zero outputCounts⟩

/-- The value in a slot. -/
def read (r : Run V) (zero : V) (slot : Nat) : V := r.slots.getD slot zero

/-- Write a slot. -/
def write (r : Run V) (slot : Nat) (v : V) : Run V :=
  { r with slots := r.slots.setIfInBounds slot v }

/-- Store a value of an output. -/
def store (r : Run V) (i k : Nat) (v : V) : Run V :=
  { r with outputs := r.outputs.store i k v }

end Run

/-- Carry out one instruction. -/
def exec (A : Algebra m V) (zero : V) (inputs : Grid V) (free : Array V) (r : Run V) :
    ScalarInstr → m (Run V)
  | .input i k result => pure (r.write result (inputs.read zero i k))
  | .constant v result => do return r.write result (← A.constant v)
  | .free k result => pure (r.write result (free.getD k zero))
  | .unary op a result => do return r.write result (← A.unary op (r.read zero a))
  | .binary op a b result => do
    return r.write result (← A.binary op (r.read zero a) (r.read zero b))
  | .output i k a => pure (r.store i k (r.read zero a))

/-- The outputs over an algebra, given the nonzeros of the inputs, the values of the free symbols
and the number of nonzeros of each output. -/
def replay (tape : ScalarTape) (A : Algebra m V) (inputs : Bundle V) (free : List V)
    (outputCounts : List Nat) : m (Bundle V) := do
  let zero ← A.constant 0.0
  let done ← tape.instrs.foldlM (exec A zero (.ofBundle inputs) free.toArray)
    (.start zero tape.workSize outputCounts)
  return done.outputs.toBundle

end Replay

/-! ### Dependencies -/

/-- Inputs of which one holds its own components as dependencies and the others none. -/
def dependencySeeds (inputCounts : List Nat) (input : Nat) : Bundle Nat :=
  inputCounts.zipIdx.map fun (n, i) =>
    (List.range n).map fun k => if i = input then dependsOn k else 0

/-- For each value of output `output`, the values of input `input` that it depends on. -/
def dependencies (tape : ScalarTape) (inputCounts outputCounts : List Nat) (input output : Nat) :
    List Nat :=
  let outputs := Id.run <|
    tape.replay dependencyAlgebra (dependencySeeds inputCounts input) [] outputCounts
  outputs.getD output []

/-- The pattern with a row for each set and a column for each component. -/
def dependencyPattern (sets : List Nat) (components : Nat) : Pattern :=
  let sets := sets.toArray
  .tabulate sets.size components fun i j => (sets.getD i 0).testBit j

end ScalarTape

end Fluxion
