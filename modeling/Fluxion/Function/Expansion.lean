import Fluxion.Function.Matrix

/-!
# Matrix functions as scalar functions

The tape of a matrix function runs over scalar expressions like over any other algebra. Every
operation on matrices unrolls into operations on their nonzeros, embedded routines are written out,
and the scalar graph decides what is shared.

## Main definitions

* `MatrixFunction.expand`: on new symbols, named after the inputs.
* `MatrixFunction.expandWith`: on given symbols.
-/

namespace Fluxion

namespace MatrixFunction

/-- The scalar function on matrices of symbols. -/
def expandOn (f : MatrixFunction) (inputs : List (SparseMatrix ScalarId)) :
    ScalarBuilder ScalarFunction := do
  let tape ← .ofExcept f.tape
  .ofExcept (checkClosed tape)
  let outputs ← tape.replay scalarAlgebra (inputs.map SparseMatrix.values) f.outCount
  let outputs := ScalarFunction.wrap f.outPatterns outputs .zero
  .ofExcept (ScalarFunction.make (← get) inputs outputs f.options)

/-- The scalar function on new symbols, named after the inputs. -/
def expand (f : MatrixFunction) : ScalarBuilder ScalarFunction := do
  let inputs ← (f.inNames.zip f.inPatterns).mapM fun (name, p) => .symbolMatrix name p
  f.expandOn inputs

/-- Matrices with the values of a list, one pattern after another. -/
def distribute {α : Type} (zero : α) : List Pattern → List α → List (SparseMatrix α)
  | [], _ => []
  | p :: rest, values => .fitted p values zero :: distribute zero rest (values.drop p.nnz)

/-- The scalar function on given symbols: one for each nonzero of the inputs, in order. -/
def expandWith (f : MatrixFunction) (symbols : List ScalarId) : ScalarBuilder ScalarFunction := do
  let count := f.inSizes.foldr (· + ·) 0
  if symbols.length ≠ count then throw (.shape (.symbolCount count symbols.length))
  f.expandOn (distribute .zero f.inPatterns symbols)

end MatrixFunction

end Fluxion
