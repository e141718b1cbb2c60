import Fluxion.Sweep.Matrix
import Fluxion.Sweep.Plan

/-!
# Derivatives of matrix functions

Derivatives are expressions in a graph that has the expressions of the function. A Jacobian is
assembled from sweeps by a gather, as its plan says. The layout is that of the derivatives of scalar
functions.

## Main definitions

* `MatrixFunction.jac`, `MatrixFunction.grad`, `MatrixFunction.tang`, `MatrixFunction.hess`:
  derivatives as expressions.
* `MatrixFunction.jacobian`: the Jacobian as a function of the same inputs.
-/

namespace Fluxion

namespace MatrixFunction

/-- What a request for a derivative of output `o` in input `i` needs first: both exist, and the
graph has the expressions. -/
def request (f : MatrixFunction) (g : MatrixGraph) (i o : Nat) : Except Error Unit := do
  checkInput i f.inCount
  checkOutput o f.outCount
  f.checkGraph g

/-- A seed for one of several matrices. -/
def seedAt (count which : Nat) (s : MatrixId) : List (Option MatrixId) :=
  (List.replicate count none).set which (some s)

/-- A constant with ones in the places of a group and zeros in the others. -/
def groupSeed (p : Pattern) (group : List Nat) : MatrixBuilder MatrixId :=
  let mask := seedMask p.nnz group
  .constant (.tabulate p fun k => if mask.getD k false then 1.0 else 0.0)

/-- An expression, or zeros on a pattern if there is none. -/
def orZero (p : Pattern) : Option MatrixId → MatrixBuilder MatrixId
  | some e => pure e
  | none => .fill p 0.0

/-- The derivatives of output `o` for each seed of input `i`. -/
def forwardColumns (f : MatrixFunction) (i o : Nat) (seeds : List MatrixId) :
    MatrixBuilder (List (Option MatrixId)) := do
  let tape ← .ofExcept f.tape
  let moved ← tape.forward f.outputs (seeds.map (seedAt f.inCount i))
  return moved.map (·.getD o none)

/-- The derivatives in input `i` for each seed of output `o`. -/
def reverseRows (f : MatrixFunction) (i o : Nat) (seeds : List MatrixId) :
    MatrixBuilder (List (Option MatrixId)) := do
  let tape ← .ofExcept f.tape
  let adjoints ← tape.reverse f.inputs (seeds.map (seedAt f.outCount o))
  return adjoints.map (·.getD i none)

/-- The derivatives that a plan asks for, one for each sweep. -/
def sweepResults (f : MatrixFunction) (plan : JacobianPlan) (i o : Nat) :
    MatrixBuilder (List MatrixId) := do
  match plan.direction with
  | .forward =>
    let columns ← f.forwardColumns i o (← plan.sweeps.mapM (groupSeed (f.inPattern i)))
    columns.mapM (orZero (f.outPattern o))
  | .reverse =>
    let rows ← f.reverseRows i o (← plan.sweeps.mapM (groupSeed (f.outPattern o)))
    rows.mapM (orZero (f.inPattern i))

/-- The Jacobian of output `o` in input `i`. It has a row for each element of the output and a
column for each element of the input, or for each nonzero if it is compact. `symmetric` is a promise
that it is symmetric. -/
def jac (f : MatrixFunction) (i o : Nat) (compact symmetric : Bool) : MatrixBuilder MatrixId := do
  .ofExcept (f.request (← get) i o)
  let p ← .ofExcept (f.dependencyPattern i o)
  let plan := JacobianPlan.make p f.options symmetric
  let derivatives ← f.sweepResults plan i o
  let assembled ← .ofExcept (p.assembledOf (f.outPattern o) (f.inPattern i) compact)
  .gather derivatives (plan.lookup.map some) assembled

/-- The gradient of an output with one element, on the pattern of the input. -/
def grad (f : MatrixFunction) (i o : Nat) : MatrixBuilder MatrixId := do
  .ofExcept (f.request (← get) i o)
  let p := f.outPattern o
  if p.shape ≠ (1, 1) then throw (.shape (.gradient p.shape))
  let rows ← f.reverseRows i o [← .fill p 1.0]
  orZero (f.inPattern i) (rows.headD none)

/-- The derivative along an input with one element, on the pattern of the output. -/
def tang (f : MatrixFunction) (i o : Nat) : MatrixBuilder MatrixId := do
  .ofExcept (f.request (← get) i o)
  let p := f.inPattern i
  if p.shape ≠ (1, 1) then throw (.shape (.tangent p.shape))
  let columns ← f.forwardColumns i o [← .fill p 1.0]
  orZero (f.outPattern o) (columns.headD none)

/-- The function of the same inputs with one expression as its output. -/
def withOutput (f : MatrixFunction) (e : MatrixId) (front : String) :
    MatrixBuilder MatrixFunction := do
  .ofExcept (make (← get) f.inputs [e] (f.options.derived front))

/-- The Hessian of an output with one element. -/
def hess (f : MatrixFunction) (i o : Nat) : MatrixBuilder MatrixId := do
  let gradient ← f.withOutput (← f.grad i o) "grad_"
  gradient.jac i 0 false true

/-- The function whose output is the Jacobian. -/
def jacobian (f : MatrixFunction) (i o : Nat) (compact symmetric : Bool) :
    MatrixBuilder MatrixFunction := do
  f.withOutput (← f.jac i o compact symmetric) "jac_"

end MatrixFunction

end Fluxion
