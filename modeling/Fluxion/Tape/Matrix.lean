import Fluxion.Expression.MatrixBuilder

/-!
# Matrix tapes

A function of matrix expressions is compiled like a scalar one, with one work slot for all nonzeros
of a value. An instruction carries what it needs, patterns, maps and routines, so a tape runs
without a graph. It runs over any algebra of scalar values: over numbers it evaluates, over scalar
expressions it expands into scalar operations, and over sets of components it tells what depends on
what.

## Main definitions

* `MatrixOp`, `MatrixInstr`, `MatrixTape`: instructions and tapes.
* `MatrixTape.compile`: the tape of a list of outputs.
* `MatrixOp.run`: the values of one instruction over an algebra.
* `MatrixTape.replay`: the outputs of a tape over an algebra.
* `MatrixTape.dependencies`: the components of an input that an output depends on.
-/

namespace Fluxion

/-- What an instruction of a matrix tape does. -/
inductive MatrixOp where
  | input (index : Nat)
  | output (index : Nat)
  | constant (values : List Binary64)
  /-- The value of free symbol `number`. -/
  | free (number : Nat)
  | unary (op : UnaryOp)
  | binary (op : BinaryOp)
  | product (left right : Pattern)
  | gather (map : GatherMap)
  | scatter (map : ScatterMap)
  | call (routine : Routine) (output : Nat)
  | lift
deriving DecidableEq

/-- An instruction of a matrix tape. -/
structure MatrixInstr where
  op : MatrixOp
  /-- The slots that are read. -/
  arguments : List Nat
  /-- The slot that is written, none for an output. -/
  result : Option Nat
  /-- The pattern of the value, or of the output. -/
  pattern : Pattern
  /-- The expression that is computed, or stored as the output. -/
  node : MatrixId
deriving DecidableEq

/-- A compiled function of matrix expressions. -/
structure MatrixTape where
  instrs : List MatrixInstr
  /-- The symbols that are no inputs, in the order in which they are met. -/
  freeSymbols : List MatrixId
  freeNames : List String
  workSize : Nat
deriving DecidableEq

namespace MatrixTape

/-! ### Compilation -/

/-- Inputs are symbols of the graph, and no two are the same. The first input left is input `i`. -/
def checkInputs (g : MatrixGraph) : List MatrixId → Nat → List MatrixId → Except Error Unit
  | _, _, [] => .ok ()
  | seen, i, e :: rest =>
    match g.node? e with
    | none => .error (.unknownExpression e.index)
    | some n =>
      if !n.isSymbol then .error (.notSymbolic i)
      else if seen.contains e then .error (.repeatedSymbol i)
      else checkInputs g (e :: seen) (i + 1) rest

/-- The pattern of an expression, an empty one if the graph does not have it. -/
def patternIn (g : MatrixGraph) (e : MatrixId) : Pattern := (g.pattern? e).getD (.empty 0 0)

/-- What it takes to compute an expression. -/
def opOf (g : MatrixGraph) (inputs free : List MatrixId) (e : MatrixId) : MatrixOp :=
  match g.node? e with
  | some (.constant m) => .constant m.values
  | some (.unary op _) => .unary op
  | some (.binary op _ _) => .binary op
  | some (.product a b) => .product (patternIn g a) (patternIn g b)
  | some (.gather _ map _) => .gather map
  | some (.scatter _ map _) => .scatter map
  | some (.call r _ output) => .call r output
  | some (.lift ..) => .lift
  | some (.symbol ..) | none =>
    match inputs.idxOf? e with
    | some i => .input i
    | none => .free (free.idxOf e)

/-- The instruction of a step. -/
def instr (g : MatrixGraph) (inputs free : List MatrixId) (s : SlottedStep) : MatrixInstr :=
  match s.step with
  | .compute i =>
    ⟨opOf g inputs free ⟨i⟩, s.arguments, some (s.result.getD 0), patternIn g ⟨i⟩, ⟨i⟩⟩
  | .store root i => ⟨.output root, s.arguments, none, patternIn g ⟨i⟩, ⟨i⟩⟩

/-- The tape that computes the outputs from the inputs. -/
def compile (g : MatrixGraph) (inputs outputs : List MatrixId) : Except Error MatrixTape :=
  match checkInputs g [] 0 inputs with
  | .error e => .error e
  | .ok () =>
    match g.unknown? outputs with
    | some e => .error (.unknownExpression e.index)
    | none =>
      let schedule := Schedule.make g.valueOperandNumbers g.size (outputs.map MatrixId.index)
      let free := (schedule.computed.map MatrixId.mk).filter fun e =>
        g.isSymbol e && !inputs.contains e
      .ok {
        instrs := schedule.steps.map (instr g inputs free)
        freeSymbols := free
        freeNames := free.map fun e => (g.name? e).getD "?"
        workSize := schedule.workSize }

end MatrixTape

/-! ### One instruction -/

/-- The terms of a matrix product in the order in which they are added up: a nonzero of the left
factor, one of the right factor, and the nonzero of the result that the product of the two belongs
to. -/
def productTerms (left right result : Pattern) : List (Nat × Nat × Nat) :=
  let factors := left.numberedColumns.toArray
  (right.numberedColumns.zip result.numberedColumns).flatMap fun (column, target) =>
    column.flatMap fun (k, q) =>
      let factor := factors.getD k []
      (factor.zip (Pattern.locateRows target (factor.map Prod.fst))).filterMap
        fun ((_, p), place) => place.map fun r => (p, q, r)

namespace MatrixOp

variable {m : Type → Type} [Monad m] {V : Type}

/-- Add a term to one of several sums. A sum without terms is not there yet. -/
def addTerm (A : Algebra m V) (sums : Array (Option V)) (r : Nat) (term : V) :
    m (Array (Option V)) :=
  match sums.getD r none with
  | none => pure (sums.setIfInBounds r (some term))
  | some s => do return sums.setIfInBounds r (some (← A.binary .add s term))

/-- The nonzeros of a matrix product. -/
def runProduct (A : Algebra m V) (zero : V) (left right result : Pattern) (x y : List V) :
    m (List V) := do
  let x := x.toArray
  let y := y.toArray
  let sums ← (productTerms left right result).foldlM (fun sums (p, q, r) => do
    addTerm A sums r (← A.binary .mul (x.getD p zero) (y.getD q zero)))
    (Array.replicate result.nnz none)
  return sums.toList.map (·.getD zero)

/-- The nonzeros of a scatter. -/
def runScatter (A : Algebra m V) (zero : V) (map : ScatterMap) (result : Pattern) (x : List V) :
    m (List V) := do
  let sums ← (map.zip x).foldlM (fun sums (target, v) =>
    match target with
    | some r => addTerm A sums r v
    | none => pure sums) (Array.replicate result.nnz none)
  return sums.toList.map (·.getD zero)

/-- The nonzeros of a gather. -/
def runGather (zero : V) (map : GatherMap) (operands : Bundle V) : List V :=
  let sources := (operands.map List.toArray).toArray
  map.map fun entry => entry.elim zero fun (p, k) => (sources.getD p #[]).getD k zero

/-- The nonzeros of an elementwise operation on two operands. -/
def runBinary (A : Algebra m V) (zero : V) (op : BinaryOp) (result : Pattern) (x y : List V) :
    m (List V) :=
  let x := x.toArray
  let y := y.toArray
  (List.range result.nnz).mapM fun k => A.binary op (pick zero x k) (pick zero y k)

/-- The nonzeros that an operation computes from those of its operands. An input is looked up among
the inputs, a free symbol is zero, and an output computes nothing. -/
def run (A : Algebra m V) (zero : V) (inputs : Bundle V) (result : Pattern)
    (operands : Bundle V) : MatrixOp → m (List V)
  | input i => pure (inputs.getD i [])
  | output _ => pure []
  | constant values => values.mapM A.constant
  | free _ => pure (List.replicate result.nnz zero)
  | unary op => (operands.getD 0 []).mapM (A.unary op)
  | binary op => runBinary A zero op result (operands.getD 0 []) (operands.getD 1 [])
  | product left right =>
    runProduct A zero left right result (operands.getD 0 []) (operands.getD 1 [])
  | gather map => pure (runGather zero map operands)
  | scatter map => runScatter A zero map result (operands.getD 0 [])
  | call r o => do return (← r.tape.replay A operands [] r.outSizes).getD o []
  | lift => pure (operands.getD 0 [])

end MatrixOp

namespace MatrixTape

/-! ### Replay -/

section Replay

variable {m : Type → Type} [Monad m] {V : Type}

/-- Work slots and outputs of a run. -/
structure Run (V : Type) where
  slots : Array (List V)
  outputs : Bundle V

/-- Carry out one instruction. -/
def exec (A : Algebra m V) (zero : V) (inputs : Bundle V) (r : Run V) (instr : MatrixInstr) :
    m (Run V) :=
  let operands := instr.arguments.map (r.slots.getD · [])
  match instr.op, instr.result with
  | .output i, _ => pure { r with outputs := r.outputs.set i (operands.getD 0 []) }
  | op, some result => do
    let values ← op.run A zero inputs instr.pattern operands
    return { r with slots := r.slots.setIfInBounds result values }
  | _, none => pure r

/-- The outputs over an algebra, given the nonzeros of the inputs. Free symbols are zero. -/
def replay (tape : MatrixTape) (A : Algebra m V) (inputs : Bundle V) (outputCount : Nat) :
    m (Bundle V) := do
  let zero ← A.constant 0.0
  let done ← tape.instrs.foldlM (exec A zero inputs)
    ⟨Array.replicate tape.workSize [], List.replicate outputCount []⟩
  return done.outputs

end Replay

/-! ### Dependencies -/

/-- For each nonzero of output `output`, the nonzeros of input `input` that it depends on. -/
def dependencies (tape : MatrixTape) (inputCounts : List Nat) (outputCount input output : Nat) :
    List Nat :=
  let outputs := Id.run <|
    tape.replay dependencyAlgebra (ScalarTape.dependencySeeds inputCounts input) outputCount
  outputs.getD output []

end MatrixTape

end Fluxion
