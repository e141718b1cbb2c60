import Fluxion.Function.Arguments
import Fluxion.Function.Options
import Fluxion.Tape.Scalar

/-!
# Functions of scalar expressions

A function has matrices of symbols as inputs and matrices of expressions as outputs. It is declared
first and initialized later: initialization compiles the outputs into a tape. An initialized
function may drop its expressions; it can still be evaluated and called, but nothing that needs the
expressions can be asked of it any more.

A function is tied to the graph of its expressions. A copy of that graph will do, if it was made
when all expressions of the function were there.

## Main definitions

* `ScalarFunction`: the type; `ScalarFunction.Stage` says how far it has come.
* `ScalarFunction.declare`, `ScalarFunction.init`, `ScalarFunction.clear`: its life;
  `ScalarFunction.make` declares and initializes.
* `ScalarFunction.eval`: outputs on numbers.
* `ScalarFunction.call`: outputs on expressions.
* `ScalarFunction.dependencyPattern`: which values of an input the values of an output depend on.
-/

namespace Fluxion

namespace ScalarFunction

/-- The inputs and outputs that a function was declared with. -/
structure Expressions where
  inputs : List (SparseMatrix ScalarId)
  outputs : List (SparseMatrix ScalarId)
  /-- The graph of the expressions, if the function keeps it. -/
  home : Option ScalarGraph

/-- How far a function has come. -/
inductive Stage where
  | declared (expressions : Expressions)
  | initialized (expressions : Expressions) (tape : ScalarTape)
  /-- Initialized once, without its expressions now. -/
  | cleared (tape : ScalarTape)

/-- The tape, from initialization on. -/
def Stage.tape? : Stage → Option ScalarTape
  | declared _ => none
  | initialized _ tape | cleared tape => some tape

/-- The expressions, until they are dropped. -/
def Stage.expressions? : Stage → Option Expressions
  | declared expressions | initialized expressions _ => some expressions
  | cleared _ => none

end ScalarFunction

/-- A function from matrices to matrices, given by scalar expressions. -/
structure ScalarFunction where
  options : FunctionOptions
  owner : Owner
  inPatterns : List Pattern
  outPatterns : List Pattern
  stage : ScalarFunction.Stage

namespace ScalarFunction

/-- The name. -/
def name (f : ScalarFunction) : String := f.options.name

/-- The number of inputs. -/
def inCount (f : ScalarFunction) : Nat := f.inPatterns.length

/-- The number of outputs. -/
def outCount (f : ScalarFunction) : Nat := f.outPatterns.length

/-- The number of nonzeros of each input. -/
def inSizes (f : ScalarFunction) : List Nat := f.inPatterns.map Pattern.nnz

/-- The number of nonzeros of each output. -/
def outSizes (f : ScalarFunction) : List Nat := f.outPatterns.map Pattern.nnz

/-- The function has a tape. -/
def isInitialized (f : ScalarFunction) : Bool := f.stage.tape?.isSome

/-- The function still has its expressions. -/
def hasExpressions (f : ScalarFunction) : Bool := f.stage.expressions?.isSome

/-- The tape. -/
def tape (f : ScalarFunction) : Except Error ScalarTape :=
  match f.stage.tape? with
  | some tape => .ok tape
  | none => .error (.notInitialized f.name)

/-- The expressions. -/
def expressions (f : ScalarFunction) : Except Error Expressions :=
  match f.stage.expressions? with
  | some expressions => .ok expressions
  | none => .error (.symbolsCleared f.name)

/-- The inputs, none once the expressions are dropped. -/
def inputs (f : ScalarFunction) : List (SparseMatrix ScalarId) :=
  f.stage.expressions?.elim [] Expressions.inputs

/-- The outputs, none once the expressions are dropped. -/
def outputs (f : ScalarFunction) : List (SparseMatrix ScalarId) :=
  f.stage.expressions?.elim [] Expressions.outputs

/-- The graph that the function keeps. -/
def home (f : ScalarFunction) : Option ScalarGraph :=
  f.stage.expressions?.bind Expressions.home

/-- The graph has the nodes of the function's expressions. -/
def livesIn (f : ScalarFunction) (g : ScalarGraph) : Bool := g.lineage.sharesOwner f.owner

/-- The function may be worked on in this graph. -/
def checkGraph (f : ScalarFunction) (g : ScalarGraph) : Except Error Unit :=
  if f.livesIn g then .ok () else .error .foreignGraph

/-! ### Life of a function -/

/-- All values of several matrices. -/
def handlesOf (matrices : List (SparseMatrix ScalarId)) : List ScalarId :=
  matrices.flatMap SparseMatrix.values

/-- Record inputs and outputs. All of them have to be expressions of the graph; whether inputs are
symbols is found out later. -/
def declare (g : ScalarGraph) (inputs outputs : List (SparseMatrix ScalarId))
    (options : FunctionOptions) : Except Error ScalarFunction :=
  let handles := handlesOf (inputs ++ outputs)
  match g.unknown? handles with
  | some e => .error (.unknownExpression e.index)
  | none => .ok {
      options
      owner := ⟨g.lineage.id, (handles.map ScalarId.index).foldl max 0⟩
      inPatterns := inputs.map SparseMatrix.pattern
      outPatterns := outputs.map SparseMatrix.pattern
      stage := .declared ⟨inputs, outputs, none⟩ }

/-- Compile the tape, unless there is one. -/
def init (f : ScalarFunction) (g : ScalarGraph) : Except Error ScalarFunction := do
  f.checkGraph g
  match f.stage with
  | .declared e =>
    let tape ← ScalarTape.compile g e.inputs e.outputs
    return { f with stage := .initialized e tape }
  | .initialized .. | .cleared .. => return f

/-- Declare and initialize. -/
def make (g : ScalarGraph) (inputs outputs : List (SparseMatrix ScalarId))
    (options : FunctionOptions) : Except Error ScalarFunction := do
  (← declare g inputs outputs options).init g

/-- Drop the expressions, and with them the graph that the function keeps. -/
def clear (f : ScalarFunction) : Except Error ScalarFunction := do
  let tape ← f.tape
  return { f with stage := .cleared tape }

/-- Keep a graph with the expressions. -/
def settle (f : ScalarFunction) (g : ScalarGraph) : ScalarFunction :=
  match f.stage with
  | .declared e => { f with stage := .declared { e with home := some g } }
  | .initialized e tape => { f with stage := .initialized { e with home := some g } tape }
  | .cleared _ => f

/-! ### Questions -/

/-- The matrix of symbols that is input `i`. -/
def input (f : ScalarFunction) (i : Nat) : Except Error (SparseMatrix ScalarId) := do
  checkInput i f.inCount
  let e ← f.expressions
  match e.inputs[i]? with
  | some m => return m
  | none => throw .outOfRange

/-- The matrix of expressions that is output `i`. -/
def output (f : ScalarFunction) (i : Nat) : Except Error (SparseMatrix ScalarId) := do
  checkOutput i f.outCount
  let e ← f.expressions
  match e.outputs[i]? with
  | some m => return m
  | none => throw .outOfRange

/-- The pattern of input `i`. -/
def inPattern (f : ScalarFunction) (i : Nat) : Pattern := f.inPatterns.getD i (.empty 0 0)

/-- The pattern of output `i`. -/
def outPattern (f : ScalarFunction) (i : Nat) : Pattern := f.outPatterns.getD i (.empty 0 0)

/-- The tape needs no values but those of the inputs. -/
def checkClosed (tape : ScalarTape) : Except Error Unit :=
  if tape.freeSymbols.isEmpty then .ok () else .error (.freeSymbols tape.freeNames)

/-- A row for each nonzero of output `o` and a column for each nonzero of input `i`: where the
former depends on the latter. -/
def dependencyPattern (f : ScalarFunction) (i o : Nat) : Except Error Pattern := do
  checkInput i f.inCount
  checkOutput o f.outCount
  let tape ← f.tape
  return ScalarTape.dependencyPattern (tape.dependencies f.inSizes f.outSizes i o)
    (f.inPattern i).nnz

/-! ### Values -/

/-- The outputs as matrices, from their values. -/
def wrap {V : Type} (patterns : List Pattern) (values : Bundle V) (zero : V) :
    List (SparseMatrix V) :=
  patterns.zipIdx.map fun (p, i) => .fitted p (values.getD i []) zero

/-- The outputs on numbers. -/
def eval (f : ScalarFunction) (arguments : List (SparseMatrix Binary64)) :
    Except Error (List (SparseMatrix Binary64)) := do
  let tape ← f.tape
  checkClosed tape
  checkArguments f.inPatterns arguments
  let outputs := Id.run <|
    tape.replay floatAlgebra (arrange f.inPatterns arguments 0.0) [] f.outSizes
  return wrap f.outPatterns outputs 0.0

/-- The values of free symbols in a graph: themselves, if the graph has them. -/
def freeValues (f : ScalarFunction) (g : ScalarGraph) (tape : ScalarTape) :
    Except Error (List ScalarId) :=
  if tape.freeSymbols.isEmpty || f.livesIn g then .ok tape.freeSymbols
  else .error (.freeSymbols tape.freeNames)

/-- The outputs on expressions of a graph, which need not be the function's own. -/
def call (f : ScalarFunction) (arguments : List (SparseMatrix ScalarId)) :
    ScalarBuilder (List (SparseMatrix ScalarId)) := do
  let tape ← .ofExcept f.tape
  .ofExcept (checkArguments f.inPatterns arguments)
  let g ← get
  match g.unknown? (handlesOf arguments) with
  | some e => throw (.unknownExpression e.index)
  | none => pure ()
  let free ← .ofExcept (f.freeValues g tape)
  let outputs ← tape.replay scalarAlgebra (arrange f.inPatterns arguments .zero) free f.outSizes
  return wrap f.outPatterns outputs .zero

end ScalarFunction

end Fluxion
