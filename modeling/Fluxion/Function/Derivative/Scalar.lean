import Fluxion.Function.Scalar
import Fluxion.Sweep.Plan
import Fluxion.Sweep.Scalar

/-!
# Derivatives of scalar functions

Derivatives are expressions in a graph that has the expressions of the function. The Jacobian is
assembled from sweeps, as its plan says; the gradient of an output with one element takes one
reverse sweep, and the tangent along an input with one element one forward sweep. The Hessian is the
symmetric Jacobian of the gradient.

## Main definitions

* `ScalarFunction.jac`, `ScalarFunction.grad`, `ScalarFunction.tang`, `ScalarFunction.hess`:
  derivatives as matrices of expressions.
* `ScalarFunction.jacobian`: the Jacobian as a function of the same inputs.
-/

namespace Fluxion

/-- Ones in the places of one matrix that a mask picks, and zeros in all others. -/
def unitSeed (sizes : List Nat) (which : Nat) (mask : List Bool) : Bundle ScalarId :=
  sizes.zipIdx.map fun (n, i) =>
    if i = which then mask.map fun on => if on then ScalarId.one else .zero
    else List.replicate n .zero

namespace ScalarFunction

/-- What a request for a derivative of output `o` in input `i` needs first: both exist, and the
expressions are there, in this graph. -/
def request (f : ScalarFunction) (g : ScalarGraph) (i o : Nat) : Except Error Expressions := do
  checkInput i f.inCount
  checkOutput o f.outCount
  f.checkGraph g
  f.expressions

/-- The values of the inputs are the symbols themselves. -/
def ownValues (e : Expressions) : Bundle ScalarId := e.inputs.map SparseMatrix.values

/-- The derivatives of output `o` for each seed of input `i`. -/
def forwardColumns (f : ScalarFunction) (e : Expressions) (tape : ScalarTape) (i o : Nat)
    (groups : List (List Nat)) : ScalarBuilder (List (List ScalarId)) := do
  let seeds := groups.map fun group => unitSeed f.inSizes i (seedMask (f.inPattern i).nnz group)
  let (_, tangents) ← tape.forward scalarAlgebra (ownValues e) tape.freeSymbols seeds f.outSizes
  return tangents.map (·.getD o [])

/-- The derivatives in input `i` for each seed of output `o`. -/
def reverseRows (f : ScalarFunction) (e : Expressions) (tape : ScalarTape) (i o : Nat)
    (groups : List (List Nat)) : ScalarBuilder (List (List ScalarId)) := do
  let seeds := groups.map fun group => unitSeed f.outSizes o (seedMask (f.outPattern o).nnz group)
  let (_, adjoints) ←
    tape.reverse scalarAlgebra (ownValues e) tape.freeSymbols seeds f.inSizes f.outSizes
  return adjoints.map (·.getD i [])

/-- The Jacobian of output `o` in input `i`. It has a row for each element of the output and a
column for each element of the input, or for each nonzero if it is compact. `symmetric` is a promise
that it is symmetric. -/
def jac (f : ScalarFunction) (i o : Nat) (compact symmetric : Bool) :
    ScalarBuilder (SparseMatrix ScalarId) := do
  let e ← .ofExcept (f.request (← get) i o)
  let tape ← .ofExcept f.tape
  let p ← .ofExcept (f.dependencyPattern i o)
  let plan := JacobianPlan.make p f.options symmetric
  let derivatives ← match plan.direction with
    | .forward => f.forwardColumns e tape i o plan.sweeps
    | .reverse => f.reverseRows e tape i o plan.sweeps
  let derivatives := Grid.ofBundle derivatives
  let values := plan.lookup.map fun (sweep, k) => derivatives.read .zero sweep k
  let assembled ← .ofExcept (p.assembledOf (f.outPattern o) (f.inPattern i) compact)
  return .fitted assembled values .zero

/-- The gradient of an output with one element, on the pattern of the input. -/
def grad (f : ScalarFunction) (i o : Nat) : ScalarBuilder (SparseMatrix ScalarId) := do
  let e ← .ofExcept (f.request (← get) i o)
  let shape := (f.outPattern o).shape
  if shape ≠ (1, 1) then throw (.shape (.gradient shape))
  let tape ← .ofExcept f.tape
  let rows ← f.reverseRows e tape i o [List.range (f.outPattern o).nnz]
  return .fitted (f.inPattern i) (rows.headD []) .zero

/-- The derivative along an input with one element, on the pattern of the output. -/
def tang (f : ScalarFunction) (i o : Nat) : ScalarBuilder (SparseMatrix ScalarId) := do
  let e ← .ofExcept (f.request (← get) i o)
  let shape := (f.inPattern i).shape
  if shape ≠ (1, 1) then throw (.shape (.tangent shape))
  let tape ← .ofExcept f.tape
  let columns ← f.forwardColumns e tape i o [List.range (f.inPattern i).nnz]
  return .fitted (f.outPattern o) (columns.headD []) .zero

/-- The function of the same inputs with one matrix of expressions as its output. -/
def withOutput (f : ScalarFunction) (m : SparseMatrix ScalarId) (front : String) :
    ScalarBuilder ScalarFunction := do
  .ofExcept (make (← get) f.inputs [m] (f.options.derived front))

/-- The Hessian of an output with one element. -/
def hess (f : ScalarFunction) (i o : Nat) : ScalarBuilder (SparseMatrix ScalarId) := do
  let gradient ← f.withOutput (← f.grad i o) "grad_"
  gradient.jac i 0 false true

/-- The function whose output is the Jacobian. -/
def jacobian (f : ScalarFunction) (i o : Nat) (compact symmetric : Bool) :
    ScalarBuilder ScalarFunction := do
  f.withOutput (← f.jac i o compact symmetric) "jac_"

end ScalarFunction

end Fluxion
