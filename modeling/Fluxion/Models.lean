import Fluxion.Function.Matrix

/-!
# Sample models

Two functions of any size, and a column of numbers to evaluate them at. The numbers look random, but
are the same every time: they come from a counter that is scrambled by shifts and multiplications
modulo `2 ^ 64`.

## Main definitions

* `uniform`, `randomColumn`: numbers between -1 and 1; `randomColumnOf` checks how many.
* `chainModel`: residuals of a chain of equal links, as a scalar function.
* `layerModel`: the sum of a layer of neurons, as a matrix function.
-/

namespace Fluxion

/-- The counter before the first number. -/
def firstCounter : UInt64 := 0xDEADBEEFCAFEBABE

/-- The counter at number `k`. -/
def counterAt (k : Nat) : UInt64 := firstCounter + 0x9e3779b97f4a7c15 * UInt64.ofNat (k + 1)

/-- Spread the bits of a counter over the whole word. -/
def scramble (z : UInt64) : UInt64 :=
  let y := (z ^^^ (z >>> 30)) * 0xbf58476d1ce4e5b9
  let y := (y ^^^ (y >>> 27)) * 0x94d049bb133111eb
  y ^^^ (y >>> 31)

/-- A number between -1 and 1 from the upper 53 bits of a word. -/
def unitNumber (word : UInt64) : Float :=
  (word >>> 11).toFloat / 9007199254740992.0 * 2.0 - 1.0

/-- The first `n` numbers. -/
def uniform (n : Nat) : List Binary64 :=
  (List.range n).map fun k => unitNumber (scramble (counterAt k))

/-- A column of `n` numbers. -/
def randomColumn (n : Nat) : SparseMatrix Binary64 := .column (uniform n)

/-- The column of `n` numbers, if they fit into a table. -/
def randomColumnOf (n : Nat) : Except Error (SparseMatrix Binary64) :=
  if n < tableLimit then .ok (randomColumn n) else .error .tooLarge

/-- The residual of link `i`: the sum of its neighbors, less twice its own place, plus the sine of
it. Beyond the ends there is no neighbor. -/
def chainResidual (xs : Array ScalarId) (two : ScalarId) (i : Nat) : ScalarBuilder ScalarId := do
  let x := xs.getD i .zero
  let e ← .unary .neg (← .binary .mul two x)
  let e ← if 0 < i then .binary .add e (xs.getD (i - 1) .zero) else pure e
  let e ← if i + 1 < xs.size then .binary .add e (xs.getD (i + 1) .zero) else pure e
  .binary .add e (← .unary .sin x)

/-- The residuals of a chain of `n` links. -/
def chainModel (n : Nat) : ScalarBuilder ScalarFunction := do
  let x ← .symbolMatrix "x" (← .ofExcept (Pattern.denseColumnOf n))
  let two ← .literal 2.0
  let residuals ← (List.range n).mapM (chainResidual x.values.toArray two)
  .ofExcept (ScalarFunction.make (← get) [x] [.column residuals] { name := "chain" })

/-- The sum of the hyperbolic tangents of `A x`, where `A` is a matrix of `m` rows and `n` columns
of numbers. -/
def layerModel (m n : Nat) : MatrixBuilder MatrixFunction := do
  let x ← .symbol "x" (← .ofExcept (Pattern.denseColumnOf n))
  let a ← .constant (.fitted (← .ofExcept (Pattern.denseOf m n)) (uniform (m * n)) 0.0)
  let s ← .sum (← .unary .tanh (← .product a x))
  .ofExcept (MatrixFunction.make (← get) [x] [s] { name := "layer" })

end Fluxion
