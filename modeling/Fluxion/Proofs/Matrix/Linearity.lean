import Fluxion.Proofs.Matrix.Tangents

/-!
# Superposition

Derivatives of matrix expressions are linear in the direction. Evaluating an expression over the dual
numbers of several directions at once, one beside the other, shows it: every operation multiplies the
derivatives of its operands by partial derivatives that do not depend on the direction.

## Main definitions

* `Algebra.pointwise` — an algebra many times, side by side

## Main results

* `MatrixGraph.tangentOf_sum` — **derivatives along a sum of directions** are sums
-/

namespace Fluxion

/-! ### Many times the same algebra -/

section Pointwise

variable {ι W : Type}

/-- An algebra many times, side by side. -/
def Algebra.pointwise (ι : Type) (A : Algebra Id W) : Algebra Id (ι → W) where
  constant c := fun _ => A.constant c
  unary op x := fun i => A.unary op (x i)
  binary op x y := fun i => A.binary op (x i) (y i)
  isZero := fun _ => false

/-- What is computed side by side is computed in each place. -/
theorem Algebra.related_at (A : Algebra Id W) (i : ι) :
    Algebra.Related (fun (x : ι → W) w => x i = w) (A.pointwise ι) A where
  constant _ := rfl
  unary op {_ _} hx := congrArg (A.unary op) hx
  binary op {_ _ _ _} hx hy := congrArg₂ (A.binary op) hx hy

end Pointwise

namespace MatrixGraph

variable {V : Type} [CommRing V] {g : MatrixGraph} {I : Interpretation V}
  {given : MatrixId → Option (List V)} {dx dx' : MatrixId → Nat → V} {e : MatrixId} {r c : Nat}

/-- Dual numbers whose derivatives add up to that of another one, all with the same value. -/
def Superposed {ι : Type} (directions : List ι) (x : ι → DualNumber V) (z : DualNumber V) : Prop :=
  (∀ i, (x i).fst = z.fst) ∧ z.snd = (directions.map fun i => (x i).snd).sum

theorem superposed_still {ι : Type} (directions : List ι) (v : V) :
    Superposed directions (fun _ => dualOf v 0) (dualOf v 0) := by
  refine ⟨fun _ => rfl, ?_⟩
  change (0 : V) = (directions.map fun _ => (0 : V)).sum
  rw [List.map_const', List.sum_replicate, smul_zero]

/-- **Operations keep sums of derivatives.** -/
theorem related_superposed {ι : Type} (I : Interpretation V) (directions : List ι) :
    Algebra.Related (Superposed directions) (I.dualAlgebra.pointwise ι) I.dualAlgebra where
  constant v := superposed_still directions (I.literal v)
  unary op {x z} hx := by
    refine ⟨fun i => ?_, ?_⟩
    · change (I.dual.unary op (x i)).fst = (I.dual.unary op z).fst
      rw [I.fst_dual_unary, I.fst_dual_unary, hx.1 i]
    · change (I.dual.unary op z).snd = (directions.map fun i => (I.dual.unary op (x i)).snd).sum
      simp only [I.snd_dual_unary, hx.1, hx.2, List.sum_map_mul_left]
  binary op {x y z w} hx hy := by
    refine ⟨fun i => ?_, ?_⟩
    · change (I.dual.binary op (x i) (y i)).fst = (I.dual.binary op z w).fst
      rw [I.fst_dual_binary, I.fst_dual_binary, hx.1 i, hy.1 i]
    · change (I.dual.binary op z w).snd
        = (directions.map fun i => (I.dual.binary op (x i) (y i)).snd).sum
      simp only [I.snd_dual_binary, hx.1, hx.2, hy.1, hy.2, List.sum_map_add, List.sum_map_mul_left]

/-- The values that are given, when they move in several directions, one beside the other. -/
def movingAll {ι : Type} (given : MatrixId → Option (List V)) (dx : ι → MatrixId → Nat → V)
    (e : MatrixId) : Option (List (ι → DualNumber V)) :=
  (given e).map fun values => values.zipIdx.map fun t i => dualOf t.1 (dx i e t.2)

/-- **Superposition.** A derivative along a sum of directions is the sum of those along its parts. -/
theorem tangentOf_sum {ι : Type} (directions : List ι) (dx : ι → MatrixId → Nat → V) :
    g.tangentOf I given (fun e l => (directions.map (dx · e l)).sum) e r c
      = (directions.map fun i => g.tangentOf I given (dx i) e r c).sum := by
  have hat : ∀ i, List.Forall₂ (fun (x : ι → DualNumber V) w => x i = w)
      (g.evaluate (I.dualAlgebra.pointwise ι) (movingAll given dx) e)
      (g.evaluate I.dualAlgebra (moving given (dx i)) e) := fun i => by
    refine g.related_evaluate (I.dualAlgebra.related_at i) (fun e => ?_) e
    rw [movingAll, moving]
    cases given e with
    | none => exact .none
    | some values => exact .some (forall₂_map_same _ fun t _ => rfl)
  have hsum : List.Forall₂ (Superposed directions)
      (g.evaluate (I.dualAlgebra.pointwise ι) (movingAll given dx) e)
      (g.evaluate I.dualAlgebra (moving given fun e l => (directions.map (dx · e l)).sum) e) := by
    refine g.related_evaluate (related_superposed I directions) (fun e => ?_) e
    rw [movingAll, moving]
    cases given e with
    | none => exact .none
    | some values => exact .some (forall₂_map_same _ fun t _ => ⟨fun _ => rfl, rfl⟩)
  simp only [tangentOf, elementOf]
  cases (MatrixTape.patternIn g e).find? r c with
  | none => exact (superposed_still directions 0).2
  | some k =>
    simp only [Option.elim_some]
    refine (forall₂_getD hsum (superposed_still directions 0) k).2.trans ?_
    refine congrArg List.sum (List.map_congr_left fun i _ => ?_)
    exact congrArg TrivSqZeroExt.snd (forall₂_getD (hat i) rfl k)

/-- What does not move anything that is given does not matter. -/
theorem tangentOf_congr (hdx : ∀ e values l, given e = some values → l < values.length →
    dx e l = dx' e l) : g.tangentOf I given dx = g.tangentOf I given dx' := by
  have hmoving : moving given dx = moving given dx' := by
    funext e
    rw [moving, moving]
    cases hgiven : given e with
    | none => rfl
    | some values =>
      refine congrArg some (List.map_congr_left fun t ht => ?_)
      rw [hdx e values t.2 hgiven (by simpa using List.snd_lt_of_mem_zipIdx ht)]
  funext e r c
  rw [tangentOf, tangentOf, hmoving]

theorem tangentOf_zero : g.tangentOf I given 0 e r c = 0 :=
  tangentOf_sum [] fun (_ : Nat) => (0 : MatrixId → Nat → V)

end MatrixGraph

end Fluxion
