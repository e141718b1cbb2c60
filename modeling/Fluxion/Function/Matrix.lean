import Fluxion.Tape.Matrix

/-!
# Functions of matrix expressions

A matrix function has symbols as inputs and expressions as outputs, each a whole matrix. Like a
scalar function it is declared first and initialized later, and it is tied to the graph of its
expressions or to a copy that has them.

## Main definitions

* `MatrixFunction`: the type.
* `MatrixFunction.declare`, `MatrixFunction.init`, `MatrixFunction.make`.
* `MatrixFunction.eval`: outputs on numbers.
* `MatrixFunction.dependencyPattern`: which nonzeros of an input those of an output depend on.
-/

namespace Fluxion

/-- A function from matrices to matrices, given by matrix expressions. -/
structure MatrixFunction where
  options : FunctionOptions
  owner : Owner
  inputs : List MatrixId
  outputs : List MatrixId
  inPatterns : List Pattern
  outPatterns : List Pattern
  inNames : List String
  /-- The tape, from initialization on. -/
  tape? : Option MatrixTape

namespace MatrixFunction

/-- The name. -/
def name (f : MatrixFunction) : String := f.options.name

/-- The number of inputs. -/
def inCount (f : MatrixFunction) : Nat := f.inputs.length

/-- The number of outputs. -/
def outCount (f : MatrixFunction) : Nat := f.outputs.length

/-- The number of nonzeros of each input. -/
def inSizes (f : MatrixFunction) : List Nat := f.inPatterns.map Pattern.nnz

/-- The pattern of input `i`. -/
def inPattern (f : MatrixFunction) (i : Nat) : Pattern := f.inPatterns.getD i (.empty 0 0)

/-- The pattern of output `i`. -/
def outPattern (f : MatrixFunction) (i : Nat) : Pattern := f.outPatterns.getD i (.empty 0 0)

/-- The function has a tape. -/
def isInitialized (f : MatrixFunction) : Bool := f.tape?.isSome

/-- The tape. -/
def tape (f : MatrixFunction) : Except Error MatrixTape :=
  match f.tape? with
  | some tape => .ok tape
  | none => .error (.notInitialized f.name)

/-- The number of instructions, stores included. -/
def countNodes (f : MatrixFunction) : Except Error Nat := do return (← f.tape).instrs.length

/-- The graph has the nodes of the function's expressions. -/
def livesIn (f : MatrixFunction) (g : MatrixGraph) : Bool := g.lineage.sharesOwner f.owner

/-- The function may be worked on in this graph. -/
def checkGraph (f : MatrixFunction) (g : MatrixGraph) : Except Error Unit :=
  if f.livesIn g then .ok () else .error .foreignGraph

/-- The tape needs no values but those of the inputs. -/
def checkClosed (tape : MatrixTape) : Except Error Unit :=
  if tape.freeSymbols.isEmpty then .ok () else .error (.freeSymbols tape.freeNames)

/-- Record inputs and outputs. All of them have to be expressions of the graph; whether inputs are
symbols is found out later. An input that has no name is called by its number. -/
def declare (g : MatrixGraph) (inputs outputs : List MatrixId) (options : FunctionOptions) :
    Except Error MatrixFunction :=
  let handles := inputs ++ outputs
  match g.unknown? handles with
  | some e => .error (.unknownExpression e.index)
  | none => .ok {
      options
      owner := ⟨g.lineage.id, (handles.map MatrixId.index).foldl max 0⟩
      inputs
      outputs
      inPatterns := inputs.map (MatrixTape.patternIn g)
      outPatterns := outputs.map (MatrixTape.patternIn g)
      inNames := inputs.zipIdx.map fun (e, i) => (g.name? e).getD ("i" ++ toString i)
      tape? := none }

/-- Compile the tape, unless there is one. -/
def init (f : MatrixFunction) (g : MatrixGraph) : Except Error MatrixFunction := do
  f.checkGraph g
  match f.tape? with
  | some _ => return f
  | none => return { f with tape? := some (← MatrixTape.compile g f.inputs f.outputs) }

/-- Declare and initialize. -/
def make (g : MatrixGraph) (inputs outputs : List MatrixId) (options : FunctionOptions) :
    Except Error MatrixFunction := do
  (← declare g inputs outputs options).init g

/-- The expression that is input `i`. -/
def input (f : MatrixFunction) (i : Nat) : Except Error MatrixId :=
  match f.inputs[i]? with
  | some e => .ok e
  | none => .error (.inputIndex i f.inCount)

/-- The expression that is output `i`. -/
def output (f : MatrixFunction) (i : Nat) : Except Error MatrixId :=
  match f.outputs[i]? with
  | some e => .ok e
  | none => .error (.outputIndex i f.outCount)

/-- The outputs on numbers. -/
def eval (f : MatrixFunction) (arguments : List (SparseMatrix Binary64)) :
    Except Error (List (SparseMatrix Binary64)) := do
  let tape ← f.tape
  checkClosed tape
  checkArguments f.inPatterns arguments
  let outputs := Id.run <|
    tape.replay floatAlgebra (arrange f.inPatterns arguments 0.0) f.outCount
  return ScalarFunction.wrap f.outPatterns outputs 0.0

/-- A row for each nonzero of output `o` and a column for each nonzero of input `i`: where the
former depends on the latter. -/
def dependencyPattern (f : MatrixFunction) (i o : Nat) : Except Error Pattern := do
  checkInput i f.inCount
  checkOutput o f.outCount
  let tape ← f.tape
  return ScalarTape.dependencyPattern (tape.dependencies f.inSizes f.outCount i o)
    (f.inPattern i).nnz

end MatrixFunction

end Fluxion
