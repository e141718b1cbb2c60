import Fluxion.Function.Scalar
import Fluxion.Proofs.Pattern.Positions
import Fluxion.Proofs.Scalar.Derivatives

/-!
# Dependencies and derivatives

The dependencies of an output are found by a run over sets of inputs, in which a result depends on
all that its operands depend on. So an output that does not depend on an input has derivative zero
in it, whatever the interpretation: a node passes on derivatives of its operands only.

## Main results

* `ScalarGraph.tangent_eq_zero_of_testBit` — no dependency, no derivative
* `ScalarTape.Resides.partialIn_eq_zero` — **derivatives outside the dependencies are zero**
-/

namespace Fluxion

namespace ScalarGraph

variable {V : Type} [CommRing V] {g : ScalarGraph} {I : Interpretation V} {ρ dx : ScalarId → V}

/-- What depends on no symbol that moves does not move. -/
theorem tangent_eq_zero_of_testBit {sets : ScalarId → Nat} {j : Nat}
    (hsets : ∀ x, (sets x).testBit j = false → dx x = 0) {e : ScalarId}
    (he : (g.evaluate dependencyAlgebra sets e).testBit j = false) : g.tangent I ρ dx e = 0 := by
  induction e using operands_induction g with
  | step e ih =>
    rcases hn : g.node? e with _ | n
    · rw [evaluate_of_none hn] at he
      rw [tangent_of_none hn]
      exact hsets e he
    · rw [evaluate_of_node? hn] at he
      rw [tangent_of_node? hn]
      cases n with
      | symbol serial => exact hsets e he
      | literal v => rfl
      | unary op a =>
        show _ * _ = 0
        rw [ih _ hn a (by simp [ScalarNode.operands]) he, mul_zero]
      | binary op a b =>
        have hbits : (g.evaluate dependencyAlgebra sets a).testBit j = false ∧
            (g.evaluate dependencyAlgebra sets b).testBit j = false := by
          rw [← Bool.or_eq_false_iff, ← Nat.testBit_or]
          exact he
        show _ * _ + _ * _ = 0
        rw [ih _ hn a (by simp [ScalarNode.operands]) hbits.1,
          ih _ hn b (by simp [ScalarNode.operands]) hbits.2, mul_zero, mul_zero, add_zero]

end ScalarGraph

namespace ScalarTape

variable {g : ScalarGraph} {inputs outputs : List (SparseMatrix ScalarId)} {tape : ScalarTape}

/-- The dependencies that symbols start with: the values of one input depend on themselves. -/
def startOf (inputs : List (SparseMatrix ScalarId)) (i : Nat) (e : ScalarId) : Nat :=
  ((places inputs).find? (·.e == e)).elim 0 fun p => if p.index = i then dependsOn p.nonzero else 0

theorem startOf_place (hdistinct : ((places inputs).map fun p => p.e.index).Nodup) {p : Place}
    (hp : p ∈ places inputs) (i : Nat) :
    startOf inputs i p.e = if p.index = i then dependsOn p.nonzero else 0 := by
  rw [startOf]
  rcases hq : (places inputs).find? (·.e == p.e) with _ | q
  · simpa using List.find?_eq_none.mp hq p hp
  · have hqe : q.e = p.e := by simpa using List.find?_some hq
    obtain rfl : q = p :=
      List.inj_on_of_nodup_map hdistinct (List.mem_of_find?_eq_some hq) hp (by rw [hqe])
    rw [hq]
    rfl

theorem startOf_other {e : ScalarId} (he : ∀ p ∈ places inputs, p.e ≠ e) (i : Nat) :
    startOf inputs i e = 0 := by
  rw [startOf, List.find?_eq_none.mpr fun p hp => by simpa using he p hp]
  rfl

namespace Resides

theorem supplies_dependencies (ht : Resides g inputs outputs tape) (i : Nat) :
    Supplies tape inputs (startOf inputs i) 0 (dependencySeeds (countsOf inputs) i) [] := by
  constructor
  · intro p hp
    have hlt := nonzero_lt_countsOf hp
    rw [startOf_place ht.distinct hp, dependencySeeds, List.getD_eq_getElem?_getD (l := List.map ..),
      List.getElem?_map, List.getElem?_zipIdx]
    rw [List.getD_eq_getElem?_getD] at hlt
    rcases hn : (countsOf inputs)[p.index]? with _ | n
    · rw [hn] at hlt
      exact absurd hlt (Nat.not_lt_zero _)
    · rw [hn, Option.getD_some] at hlt
      simp [List.getD_eq_getElem?_getD, hlt]
  · intro k e he
    exact (startOf_other (ht.free (List.mem_of_getElem? he)).2 i).symm

theorem length_dependencies (ht : Resides g inputs outputs tape) (i o : Nat) :
    (tape.dependencies (countsOf inputs) (countsOf outputs) i o).length
      = (countsOf outputs).getD o 0 := by
  obtain ⟨origin, bound, hcompiled, -⟩ := id ht
  rw [dependencies, replay_eq, Grid.length_getD_toBundle]
  exact tape.width_finish dependencyAlgebra _ _ _ o

theorem getD_dependencies (ht : Resides g inputs outputs tape) {p : Place} (hp : p ∈ places outputs)
    (i : Nat) :
    (tape.dependencies (countsOf inputs) (countsOf outputs) i p.index).getD p.nonzero 0
      = g.evaluate dependencyAlgebra (startOf inputs i) p.e := by
  rw [dependencies, replay_eq, Grid.getD_toBundle]
  exact ht.read_finish (A := dependencyAlgebra) (ht.supplies_dependencies i) hp

/-- **Derivatives outside the dependencies are zero.** -/
theorem partialIn_eq_zero {V : Type} [CommRing V] {I : Interpretation V} {ρ : ScalarId → V}
    (ht : Resides g inputs outputs tape) {p q : Place} (hp : p ∈ places inputs)
    (hq : q ∈ places outputs)
    (hbit : ((tape.dependencies (countsOf inputs) (countsOf outputs) p.index q.index).getD
      q.nonzero 0).testBit p.nonzero = false) : g.partialIn I ρ p.e q.e = 0 := by
  rw [ht.getD_dependencies hq] at hbit
  refine ScalarGraph.tangent_eq_zero_of_testBit (fun x hx => ?_) hbit
  refine if_neg fun hxp => ?_
  rw [hxp, startOf_place ht.distinct hp, if_pos rfl, dependsOn, Nat.testBit_shiftLeft] at hx
  simp at hx

end Resides

theorem mem_positions_dependencyPattern {sets : List Nat} {components k j : Nat} :
    (k, j) ∈ (dependencyPattern sets components).positions
      ↔ k < sets.length ∧ j < components ∧ (sets.getD k 0).testBit j = true := by
  rw [dependencyPattern, Pattern.mem_positions_tabulate, List.size_toArray, Pattern.getD_toArray]

end ScalarTape

end Fluxion
