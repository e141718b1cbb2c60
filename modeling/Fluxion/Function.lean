import Fluxion.Function.Derivative.Matrix
import Fluxion.Function.Expansion
import Fluxion.Function.Lifting

/-!
# Functions of either kind

A function is given by scalar expressions or by matrix expressions. What both kinds can be asked is
asked here; a request that only one kind can answer refuses the other.

## Main definitions

* `Function`: a function of either kind; `Function.kind`.
* `Function.asScalar`, `Function.asMatrix`: the function, if it is of that kind.
* `Function.eval`, `Function.dependencyPattern` and others: questions to both kinds.
* `Function.expand`, `Function.liftingFunctions`: conversions.
-/

namespace Fluxion

/-- A function of either kind. -/
inductive Function where
  | scalar (object : FunctionObject)
  | matrix (function : MatrixFunction)

namespace Function

/-- The kind of a function. -/
def kind : Function → FunctionKind
  | scalar _ => .scalar
  | matrix _ => .matrix

/-- The scalar function, if it is one. -/
def asScalar : Function → Except Error FunctionObject
  | scalar o => .ok o
  | matrix _ => .error (.kindMismatch .scalar .matrix)

/-- The matrix function, if it is one. -/
def asMatrix : Function → Except Error MatrixFunction
  | matrix f => .ok f
  | scalar _ => .error (.kindMismatch .matrix .scalar)

/-- Options, the name among them. -/
def options : Function → FunctionOptions
  | scalar o => o.function.options
  | matrix f => f.options

/-- The name. -/
def name (f : Function) : String := f.options.name

/-- The patterns of the inputs. -/
def inPatterns : Function → List Pattern
  | scalar o => o.function.inPatterns
  | matrix f => f.inPatterns

/-- The patterns of the outputs. -/
def outPatterns : Function → List Pattern
  | scalar o => o.function.outPatterns
  | matrix f => f.outPatterns

/-- The pattern of input `i`. -/
def inPattern (f : Function) (i : Nat) : Except Error Pattern :=
  match f.inPatterns[i]? with
  | some p => .ok p
  | none => .error (.inputIndex i f.inPatterns.length)

/-- The pattern of output `i`. -/
def outPattern (f : Function) (i : Nat) : Except Error Pattern :=
  match f.outPatterns[i]? with
  | some p => .ok p
  | none => .error (.outputIndex i f.outPatterns.length)

/-- The function has a tape. -/
def isInitialized : Function → Bool
  | scalar o => o.function.isInitialized
  | matrix f => f.isInitialized

/-- The length of the tape. Stores count for matrix functions only. -/
def countNodes : Function → Except Error Nat
  | scalar o => do return (← o.function.tape).countNodes
  | matrix f => f.countNodes

/-- The number of work slots. -/
def workSize : Function → Except Error Nat
  | scalar o => do return (← o.function.tape).workSize
  | matrix f => do return (← f.tape).workSize

/-- The number of symbols that have no value. -/
def freeCount : Function → Except Error Nat
  | scalar o => do return (← o.function.tape).freeSymbols.length
  | matrix f => do return (← f.tape).freeSymbols.length

/-- The outputs on numbers. -/
def eval : Function → List (SparseMatrix Binary64) → Except Error (List (SparseMatrix Binary64))
  | scalar o => o.function.eval
  | matrix f => f.eval

/-- Which nonzeros of input `i` the nonzeros of output `o` depend on. -/
def dependencyPattern : Function → Nat → Nat → Except Error Pattern
  | scalar o => o.function.dependencyPattern
  | matrix f => f.dependencyPattern

/-- A scalar function that computes the same. A scalar function is one already. -/
def expand : Function → ScalarBuilder ScalarFunction
  | scalar o => pure o.function
  | matrix f => f.expand

/-- The lifting functions of a matrix function. -/
def liftingFunctions (f : Function) : MatrixBuilder LiftingFunctions := do
  (← .ofExcept f.asMatrix).liftingFunctions

end Function

end Fluxion
