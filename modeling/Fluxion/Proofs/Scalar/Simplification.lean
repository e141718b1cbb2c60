import Fluxion.Proofs.Scalar.Irreducible
import Fluxion.Proofs.Scalar.Lawful

/-!
# Simplification preserves value

A builder that is asked for an operation may return a literal, an operand, or a handle that was there
before. Whoever asked need not know. The handle has the value that the operation has on the values of
the operands, under every assignment of the symbols and over every algebra that obeys the laws by
which operations are left out, and no other handle is affected.

Which handle is returned does not depend on the algebra that it is read over. So one handle has to do
for all of them (`Computes`), while the lemmas about builders are about one algebra at a time. The
algebra on a single value, which obeys every law, tells that there is a handle; the others then speak
of the same one.

## Main definitions

* `ScalarBuilder.Computes` — a request returns a handle with a value, and changes no other value

## Main results

* `ScalarGraph.Reachable.founded` — the literals 0 and 1 are where the builders look for them
* `ScalarBuilder.computes_sum` — sums are built term by term
* `ScalarGraph.Reachable.computes_operations` — **simplification preserves value**
-/

namespace Fluxion

variable {g h : ScalarGraph}

/-- The algebra on a single value. -/
def Algebra.trivial : Algebra Id PUnit where
  constant _ := ⟨⟩
  unary _ _ := ⟨⟩
  binary _ _ _ := ⟨⟩
  isZero _ := false

theorem Algebra.simplifies_trivial : Algebra.trivial.Simplifies where
  neg _ := rfl
  add _ _ := rfl
  sub _ _ := rfl
  mul _ _ := rfl
  zero := rfl
  zero_div _ := rfl
  one := rfl
  div_one _ := rfl
  pow_zero _ := rfl
  pow_one _ := rfl

namespace ScalarBuilder

/-- What the handle is said to be worth, over an algebra on a ring and under an assignment. -/
abbrev Worth := ∀ (V : Type) [CommRing V], Algebra Id V → (ScalarId → V) → V

/-- The request returns a handle of the graph that is left. Every handle that was there keeps its
value, over any algebra. Over an algebra that obeys the laws, if the folds on record are exact, the
returned handle is worth `value`. -/
def Computes (x : ScalarBuilder ScalarId) (g : ScalarGraph) (value : Worth) : Prop :=
  ∃ e h, x g = .ok e h ∧ h.Has e ∧
    (∀ d, g.Has d → h.Has d ∧ ∀ (W : Type) (A : Algebra Id W) (given : ScalarId → W),
      h.evaluate A given d = g.evaluate A given d) ∧
    ∀ (V : Type) [CommRing V] (A : Algebra Id V) (given : ScalarId → V),
      A.Simplifies → A.Exact h.folds → h.evaluate A given e = value V A given

/-- One handle does for all algebras. -/
theorem computes_of_forall {x : ScalarBuilder ScalarId} {value : Worth}
    (hx : ∀ (V : Type) [CommRing V] (A : Algebra Id V) (given : ScalarId → V), A.Simplifies →
      ∃ e h, x g = .ok e h ∧ g.Grows h ∧ h.Has e ∧
        (A.Exact h.folds → h.evaluate A given e = value V A given)) :
    Computes x g value := by
  obtain ⟨e, h, hrun, hgrow, he, -⟩ :=
    hx PUnit Algebra.trivial (fun _ => ⟨⟩) Algebra.simplifies_trivial
  refine ⟨e, h, hrun, he, fun d hd => ⟨hd.grow hgrow, fun W A given => ?_⟩,
    fun V _ A given hA hexact => ?_⟩
  · exact ScalarGraph.evaluate_grow hgrow hd
  · obtain ⟨e', h', hrun', -, -, hvalue⟩ := hx V A given hA
    rw [hrun] at hrun'
    cases hrun'
    exact hvalue hexact

theorem computes_unary (op : UnaryOp) {a : ScalarId} (ha : g.Has a) :
    Computes (unary op a) g fun _ _ A given => A.unary op (g.evaluate A given a) :=
  computes_of_forall fun _ _ _ given hA => evaluate_unary hA.toOnRing given op ha

theorem computes_binary (hg : g.Founded) (op : BinaryOp) {a b : ScalarId} (ha : g.Has a)
    (hb : g.Has b) :
    Computes (binary op a b) g fun _ _ A given =>
      A.binary op (g.evaluate A given a) (g.evaluate A given b) :=
  computes_of_forall fun _ _ _ given hA => evaluate_binary hA hg given op ha hb

/-! ### Sums -/

/-- Terms are added one after another, each to the sum of those before it. -/
theorem evaluate_sum_from {V : Type} [CommRing V] {A : Algebra Id V} (hA : A.Simplifies)
    (hg : g.Founded) (given : ScalarId → V) {es : List ScalarId} {s : ScalarId} (hs : g.Has s)
    (hes : ∀ e ∈ es, g.Has e) :
    ∃ e h, es.foldlM (binary .add) s g = .ok e h ∧ g.Grows h ∧ h.Has e ∧ (A.Exact h.folds →
      h.evaluate A given e = g.evaluate A given s + (es.map (g.evaluate A given)).sum) := by
  induction es generalizing g s with
  | nil => exact ⟨s, g, rfl, .refl g, hs, fun _ => by rw [List.map_nil, List.sum_nil, add_zero]⟩
  | cons a rest ih =>
    have ha := hes a (by simp)
    obtain ⟨t, k, hadd, hgk, ht, htotal⟩ := evaluate_binary hA hg given .add hs ha
    obtain ⟨e, h, hrest, hkh, he, hvalue⟩ := ih (hg.grow hgk) ht
      fun d hd => (hes d (by simp [hd])).grow hgk
    refine ⟨e, h, ?_, hgk.trans hkh, he, fun hexact => ?_⟩
    · rw [List.foldlM_cons]
      simp only [bind, EStateM.bind, hadd]
      exact hrest
    · have hkeep : rest.map (k.evaluate A given) = rest.map (g.evaluate A given) :=
        List.map_congr_left fun d hd => ScalarGraph.evaluate_grow hgk (hes d (by simp [hd]))
      rw [hvalue hexact, htotal (hexact.of_suffix hkh.folds), hA.add, hkeep, List.map_cons,
        List.sum_cons, add_assoc]

/-- **Sums** of matrices have the sum of the values, zero for a matrix without values. -/
theorem computes_sum (hg : g.Founded) (m : SparseMatrix ScalarId) (hm : ∀ e ∈ m.values, g.Has e) :
    Computes (sum m) g fun _ _ A given => (m.values.map (g.evaluate A given)).sum := by
  refine computes_of_forall fun V _ A given hA => ?_
  obtain ⟨e, h, hrun, hgrow, he, hvalue⟩ := evaluate_sum_from hA hg given ⟨_, hg.zero⟩ hm
  refine ⟨e, h, hrun, hgrow, he, fun hexact => ?_⟩
  rw [hvalue hexact, hg.evaluate_zero hA.toOnRing, zero_add]

end ScalarBuilder

namespace ScalarGraph

/-- The literals 0, 1 and 2 are the first nodes of every graph. -/
theorem Reachable.founded (hg : g.Reachable) : g.Founded := by
  induction hg with
  | new id => exact founded_new id
  | fork id _ ih => exact ⟨ih.zero, ih.one, ih.two⟩
  | request r _ ih => exact ih.grow (extends_after r _).grows

/-- **Simplification preserves value.** In every graph, requests for an operation and for the sum of a
matrix return a handle with the value of the operation or the sum, and change no value. -/
theorem Reachable.computes_operations (hg : g.Reachable) :
    (∀ op a, g.Has a →
      (ScalarBuilder.unary op a).Computes g fun _ _ A given =>
        A.unary op (g.evaluate A given a)) ∧
    (∀ op a b, g.Has a → g.Has b →
      (ScalarBuilder.binary op a b).Computes g fun _ _ A given =>
        A.binary op (g.evaluate A given a) (g.evaluate A given b)) ∧
    ∀ m : SparseMatrix ScalarId, (∀ e ∈ m.values, g.Has e) →
      (ScalarBuilder.sum m).Computes g fun _ _ A given =>
        (m.values.map (g.evaluate A given)).sum :=
  ⟨fun op _ ha => ScalarBuilder.computes_unary op ha,
    fun op _ _ ha hb => ScalarBuilder.computes_binary hg.founded op ha hb,
    fun m hm => ScalarBuilder.computes_sum hg.founded m hm⟩

end ScalarGraph

namespace ForkedSine

/-- Zero less the sine is a negation, and what is added up for two sines starts with a shortcut. -/
theorem computes_operations_sine : graph.Reachable ∧
    (ScalarBuilder.binary .sub .zero ⟨4⟩).Computes graph (fun _ _ A given =>
      A.binary .sub (graph.evaluate A given .zero) (graph.evaluate A given ⟨4⟩)) ∧
    (ScalarBuilder.sum (.column [⟨4⟩, ⟨4⟩])).Computes graph fun _ _ A given =>
      ([⟨4⟩, ⟨4⟩].map (graph.evaluate A given)).sum := by
  have hgraph : graph.Reachable := .request _ (.fork _ (.request _ (.new _)))
  have hzero : graph.Has .zero := ScalarGraph.has_of_index_lt (by decide)
  have hsine : graph.Has ⟨4⟩ := ScalarGraph.has_of_index_lt (by decide)
  obtain ⟨-, hbinary, hsum⟩ := hgraph.computes_operations
  have hterms : ∀ e ∈ [(⟨4⟩ : ScalarId), ⟨4⟩], graph.Has e := by
    intro e he
    rcases List.mem_pair.mp he with rfl | rfl
    · exact hsine
    · exact hsine
  exact ⟨hgraph, hbinary .sub .zero ⟨4⟩ hzero hsine, hsum (.column [⟨4⟩, ⟨4⟩]) hterms⟩

end ForkedSine

end Fluxion
