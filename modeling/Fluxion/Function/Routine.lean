import Fluxion.Function.Derivative.Scalar

/-!
# Functions that can be embedded

A function that has a tape and no free symbols needs nothing but values for its inputs. Such a
routine can be embedded into matrix expressions, where it is known by its identity. It has two
derivative functions, which live in graphs of their own: one takes the inputs and a direction for
each of them and returns how the outputs move, the other takes the inputs and a weight for each
output and returns the derivatives of the weighted sum.

An object that holds a function has an identity, and the identities of the two derivative functions
that are made from it. A copy of the object has its own identity, but it shares those derivative
functions that had been made when it was copied.

## Main definitions

* `Routine`: a tape without free symbols, with its patterns and identities.
* `Routine.forwardFunction`, `Routine.reverseFunction`: the derivative functions.
* `FunctionObject`: a function with an identity; `FunctionObject.copy`.
* `Routine.forwardDerivative`, `Routine.reverseDerivative`: the derivative functions as objects.
-/

namespace Fluxion

/-- A function that needs no values but those of its inputs. -/
structure Routine where
  id : FunctionId
  forwardId : FunctionId
  reverseId : FunctionId
  options : FunctionOptions
  inPatterns : List Pattern
  outPatterns : List Pattern
  tape : ScalarTape
  closed : tape.freeSymbols = []
deriving DecidableEq

namespace Routine

/-- The name. -/
def name (r : Routine) : String := r.options.name

/-- The number of nonzeros of each input. -/
def inSizes (r : Routine) : List Nat := r.inPatterns.map Pattern.nnz

/-- The number of nonzeros of each output. -/
def outSizes (r : Routine) : List Nat := r.outPatterns.map Pattern.nnz

/-- The pattern of output `i`. -/
def outPattern (r : Routine) (i : Nat) : Pattern := r.outPatterns.getD i (.empty 0 0)

/-- A row for each nonzero of output `o` and a column for each nonzero of input `i`. -/
def dependencyPattern (r : Routine) (i o : Nat) : Pattern :=
  ScalarTape.dependencyPattern (r.tape.dependencies r.inSizes r.outSizes i o)
    (r.inSizes.getD i 0)

/-- A matrix of new symbols for each pattern, named after a letter and the number of the pattern. -/
def symbolsLike (letter : String) (patterns : List Pattern) :
    ScalarBuilder (List (SparseMatrix ScalarId)) :=
  patterns.zipIdx.mapM fun (p, i) => .symbolMatrix (letter ++ toString i) p

/-- A function in a graph of its own, which it keeps. -/
def standalone (r : Routine) (id : FunctionId) (front : String)
    (build : ScalarBuilder (List (SparseMatrix ScalarId) × List (SparseMatrix ScalarId))) :
    Except Error ScalarFunction :=
  match build (.new (.standalone id)) with
  | .error e _ => .error e
  | .ok (inputs, outputs) g => do
    return (← ScalarFunction.make g inputs outputs (r.options.derived front)).settle g

/-- The inputs and their directions, and how the outputs move. -/
def forwardFunction (r : Routine) : Except Error ScalarFunction :=
  r.standalone r.forwardId "fwd_" do
    let xs ← symbolsLike "x" r.inPatterns
    let ts ← symbolsLike "t" r.inPatterns
    let (_, tangents) ← r.tape.forward scalarAlgebra (xs.map SparseMatrix.values) []
      [ts.map SparseMatrix.values] r.outSizes
    return (xs ++ ts, ScalarFunction.wrap r.outPatterns (tangents.headD []) .zero)

/-- The inputs and the weights of the outputs, and the derivatives in the inputs. -/
def reverseFunction (r : Routine) : Except Error ScalarFunction :=
  r.standalone r.reverseId "rev_" do
    let xs ← symbolsLike "x" r.inPatterns
    let weights ← symbolsLike "a" r.outPatterns
    let (_, adjoints) ← r.tape.reverse scalarAlgebra (xs.map SparseMatrix.values) []
      [weights.map SparseMatrix.values] r.inSizes r.outSizes
    return (xs ++ weights, ScalarFunction.wrap r.inPatterns (adjoints.headD []) .zero)

end Routine

/-- A scalar function with its identity, and the identities of its derivative functions. -/
structure FunctionObject where
  id : FunctionId
  forwardId : FunctionId
  reverseId : FunctionId
  function : ScalarFunction

namespace FunctionObject

/-- An object that shares no derivative functions with another one. -/
def new (id : FunctionId) (function : ScalarFunction) : FunctionObject :=
  ⟨id, .forward id, .reverse id, function⟩

/-- A copy of an object with a function of its own, which shares the derivative functions that have
been made. -/
def copy (f : FunctionObject) (id : FunctionId) (function : ScalarFunction)
    (isMade : FunctionId → Bool) : FunctionObject where
  id := id
  forwardId := if isMade f.forwardId then f.forwardId else .forward id
  reverseId := if isMade f.reverseId then f.reverseId else .reverse id
  function := function

/-- The function as a routine. -/
def routine (f : FunctionObject) : Except Error Routine := do
  let tape ← f.function.tape
  if h : tape.freeSymbols = [] then
    return {
      id := f.id
      forwardId := f.forwardId
      reverseId := f.reverseId
      options := f.function.options
      inPatterns := f.function.inPatterns
      outPatterns := f.function.outPatterns
      tape
      closed := h }
  else throw (.freeSymbols tape.freeNames)

end FunctionObject

namespace Routine

/-- The forward derivative function. -/
def forwardDerivative (r : Routine) : Except Error FunctionObject := do
  return .new r.forwardId (← r.forwardFunction)

/-- The reverse derivative function. -/
def reverseDerivative (r : Routine) : Except Error FunctionObject := do
  return .new r.reverseId (← r.reverseFunction)

end Routine

end Fluxion
