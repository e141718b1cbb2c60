import Fluxion.Function.Derivative.Scalar
import Fluxion.Proofs.History.Scalar
import Fluxion.Proofs.Jacobian.Seeding
import Fluxion.Proofs.Scalar.Dependencies

/-!
# Sweeps of unit seeds

A unit seed has ones in the places of one matrix that are in a group, and zeros in all others. As a
direction of the inputs it is the sum of the unit directions of the group, and as weights of the
outputs it picks the outputs of the group. So the sweeps of a scalar function show sums of formal
partial derivatives over groups, forward along rows and reverse along columns.

## Main definitions

* `valueAt` — a value of one of several matrices
* `ScalarFunction.Ready` — a function with a tape in a graph that it may be used with
* `ScalarFunction.Expressions.partials` — the matrix of formal partial derivatives

## Main results

* `ScalarFunction.yields_forwardColumns`, `ScalarFunction.yields_reverseRows` — **sweeps of unit
  seeds show sums of partial derivatives**
-/

namespace Fluxion

open ScalarBuilder ScalarTape

/-! ### Values by place -/

/-- Value `k` of matrix `i`. -/
def valueAt (ms : List (SparseMatrix ScalarId)) (i k : Nat) : ScalarId :=
  ((ms.map SparseMatrix.values).getD i []).getD k .zero

section Values

variable {ms : List (SparseMatrix ScalarId)} {i k : Nat}

theorem length_values_getD :
    ((ms.map SparseMatrix.values).getD i []).length = (countsOf ms).getD i 0 := by
  rw [countsOf, List.getD_eq_getElem?_getD, List.getD_eq_getElem?_getD, List.getElem?_map,
    List.getElem?_map]
  rcases ms[i]? with _ | m
  · rfl
  · exact m.length_values

theorem getElem?_values_getD :
    ((ms.map SparseMatrix.values).getD i [])[k]?
      = if k < (countsOf ms).getD i 0 then some (valueAt ms i k) else none := by
  rw [← length_values_getD, valueAt]
  split
  · rename_i hk
    rw [List.getElem?_eq_getElem hk, List.getD_eq_getElem _ _ hk]
  · rename_i hk
    exact List.getElem?_eq_none (Nat.le_of_not_lt hk)

theorem mem_places_valueAt {p : Place} :
    p ∈ places ms ↔ p.nonzero < (countsOf ms).getD p.index 0 ∧ p.e = valueAt ms p.index p.nonzero := by
  have hvalue : p ∈ places ms ↔
      ((ms.map SparseMatrix.values).getD p.index [])[p.nonzero]? = some p.e := by
    rw [mem_places, List.getD_eq_getElem?_getD, List.getElem?_map]
    rcases ms[p.index]? with _ | m <;> simp
  rw [hvalue, getElem?_values_getD, Option.ite_none_right_eq_some, Option.some.injEq]
  exact and_congr_right fun _ => eq_comm

theorem valueAt_mem_places (hk : k < (countsOf ms).getD i 0) : ⟨valueAt ms i k, i, k⟩ ∈ places ms :=
  mem_places_valueAt.mpr ⟨hk, rfl⟩

end Values

/-! ### Unit seeds -/

section Seeds

variable {sizes group : List Nat} {which i k : Nat}

theorem getElem?_seedMask {n : Nat} :
    (seedMask n group)[k]? = if k < n then some (decide (k ∈ group)) else none := by
  rw [seedMask, Array.getElem?_toList, getElem?_marks]

/-- What is in a unit seed. -/
theorem getElem?_unitSeed :
    ((unitSeed sizes which (seedMask (sizes.getD which 0) group)).getD i [])[k]?
      = if k < sizes.getD i 0 then
          some (if i = which ∧ k ∈ group then ScalarId.one else .zero)
        else none := by
  rw [unitSeed, List.getD_eq_getElem?_getD, List.getElem?_map, List.getElem?_zipIdx,
    List.getD_eq_getElem?_getD (l := sizes) (i := i)]
  rcases hn : sizes[i]? with _ | n
  · simp
  · simp only [Option.map_some, Nat.zero_add, Option.getD_some]
    by_cases hi : i = which
    · subst hi
      have hcount : sizes.getD i 0 = n := by
        rw [List.getD_eq_getElem?_getD, hn, Option.getD_some]
      rw [if_pos rfl, List.getElem?_map, hcount, getElem?_seedMask]
      split <;> simp
    · rw [if_neg hi, List.getElem?_replicate]
      simp [hi]

variable {V : Type} [CommRing V] {I : Interpretation V} {ρ : ScalarId → V} {g : ScalarGraph}

/-- A unit seed as weights. -/
def unitWeights (V : Type) [CommRing V] (sizes : List Nat) (which : Nat) (group : List Nat) :
    Bundle V :=
  (unitSeed sizes which (seedMask (sizes.getD which 0) group)).map
    (·.map fun s => if s = .one then 1 else 0)

theorem related_unitWeights (hg : g.Founded) :
    Bundle.Related (g.Reads I ρ) (unitSeed sizes which (seedMask (sizes.getD which 0) group))
      (unitWeights V sizes which group) := by
  refine .map_right fun i k => ?_
  rw [getElem?_unitSeed]
  split
  · refine .some ?_
    split
    · rw [if_pos rfl]
      exact hg.reads_one
    · rw [if_neg (by decide)]
      exact hg.reads_zero
  · exact .none

theorem getD_unitWeights (hk : k < sizes.getD i 0) :
    ((unitWeights V sizes which group).getD i []).getD k 0
      = if i = which ∧ k ∈ group then 1 else 0 := by
  have hrow : ((unitWeights V sizes which group).getD i [])[k]?
      = (((unitSeed sizes which (seedMask (sizes.getD which 0) group)).getD i [])[k]?).map
          fun s => if s = .one then 1 else 0 := by
    simp only [unitWeights, List.getD_eq_getElem?_getD, List.getElem?_map]
    rcases (unitSeed sizes which (seedMask (sizes[which]?.getD 0) group))[i]? with _ | row <;> simp
  rw [List.getD_eq_getElem?_getD, hrow, getElem?_unitSeed, if_pos hk, Option.map_some,
    Option.getD_some]
  split
  · rw [if_pos rfl]
  · rw [if_neg (by decide)]

/-- A sum of picked terms. -/
theorem sum_map_ite_mul {ι : Type} (c : ι → Prop) [DecidablePred c] (f : ι → V) (l : List ι) :
    (l.map fun x => (if c x then 1 else 0) * f x).sum = ((l.filter (c ·)).map f).sum := by
  induction l with
  | nil => rfl
  | cons x rest ih =>
    rw [List.map_cons, List.sum_cons, ih, List.filter_cons]
    by_cases hx : c x
    · simp [hx]
    · simp [hx]

/-- The places of one matrix that are in a group. -/
theorem filter_places_perm {ms : List (SparseMatrix ScalarId)} {o : Nat} :
    ((places ms).filter fun q => decide (q.index = o ∧ q.nonzero ∈ group)).Perm
      (((List.range ((countsOf ms).getD o 0)).filter (· ∈ group)).map
        fun k => ⟨valueAt ms o k, o, k⟩) := by
  refine (List.perm_ext_iff_of_nodup ?_ ?_).mpr fun q => ?_
  · exact (nodup_places ms).of_map.filter _
  · refine (List.nodup_range.filter _).map fun a b hab => ?_
    exact (Place.mk.injEq .. ▸ hab).2.2
  · rw [List.mem_filter, mem_places_valueAt, decide_eq_true_eq]
    simp only [List.mem_map, List.mem_filter, List.mem_range, decide_eq_true_eq]
    constructor
    · rintro ⟨⟨hlt, he⟩, rfl, hgroup⟩
      exact ⟨q.nonzero, ⟨hlt, hgroup⟩, by rw [← he]⟩
    · rintro ⟨k, ⟨hlt, hgroup⟩, rfl⟩
      exact ⟨⟨hlt, rfl⟩, rfl, hgroup⟩

/-- Outputs with unit weights are the outputs of the group. -/
theorem weighted_unitWeights {outputs : List (SparseMatrix ScalarId)} {o : Nat} (f : ScalarId → V) :
    weighted outputs (unitWeights V (countsOf outputs) o group) f
      = seeded ((countsOf outputs).getD o 0) group fun k => f (valueAt outputs o k) := by
  have hpick : ∀ q ∈ places outputs,
      ((unitWeights V (countsOf outputs) o group).getD q.index []).getD q.nonzero 0 * f q.e
        = (if q.index = o ∧ q.nonzero ∈ group then 1 else 0) * f q.e := fun q hq => by
    rw [getD_unitWeights (nonzero_lt_countsOf hq)]
  rw [weighted, List.map_congr_left hpick, sum_map_ite_mul,
    (filter_places_perm.map fun q : Place => f q.e).sum_eq, List.map_map, seeded]
  rfl

end Seeds

/-! ### Functions in a graph -/

namespace ScalarFunction

/-- The function has expressions and a tape, and the graph has its nodes. -/
structure Ready (f : ScalarFunction) (g : ScalarGraph) (e : Expressions) (tape : ScalarTape) :
    Prop where
  stage : f.stage = .initialized e tape
  lives : f.livesIn g = true
  holds : f.Holds e
  resides : Resides g e.inputs e.outputs tape

section Partials

variable {V : Type} [CommRing V] (g : ScalarGraph) (I : Interpretation V) (ρ : ScalarId → V)

/-- The formal partial derivative of value `k` of output `o` in value `j` of input `i`, zero where
there are no such values. -/
def Expressions.partials (e : Expressions) (i o k j : Nat) : V :=
  if k < (countsOf e.outputs).getD o 0 ∧ j < (countsOf e.inputs).getD i 0 then
    g.partialIn I ρ (valueAt e.inputs i j) (valueAt e.outputs o k)
  else 0

end Partials

section Sweeps

variable {f : ScalarFunction} {g : ScalarGraph} {e : Expressions} {tape : ScalarTape}
  {V : Type} [CommRing V] {I : Interpretation V} {ρ : ScalarId → V} {i o k : Nat}

theorem nnz_getD (ps : List Pattern) (i : Nat) :
    (ps.getD i (.empty 0 0)).nnz = (ps.map Pattern.nnz).getD i 0 := by
  rw [List.getD_eq_getElem?_getD, List.getD_eq_getElem?_getD, List.getElem?_map]
  rcases ps[i]? with _ | p <;> rfl

theorem Holds.nnz_inPattern (hf : f.Holds e) : (f.inPattern i).nnz = (countsOf e.inputs).getD i 0 := by
  rw [inPattern, nnz_getD, ← hf.inSizes]
  rfl

theorem Holds.nnz_outPattern (hf : f.Holds e) :
    (f.outPattern o).nnz = (countsOf e.outputs).getD o 0 := by
  rw [outPattern, nnz_getD, ← hf.outSizes]
  rfl

/-- The direction of the inputs that a group of one input makes. -/
def groupDirection (V : Type) [CommRing V] (e : Expressions) (i : Nat) (group : List Nat)
    (x : ScalarId) : V :=
  (((List.range ((countsOf e.inputs).getD i 0)).filter (· ∈ group)).map fun j =>
    ScalarGraph.unit (valueAt e.inputs i j) x).sum

theorem valueAt_inj (hr : Resides g e.inputs e.outputs tape) {p : Place} (hp : p ∈ places e.inputs)
    {j : Nat} (hj : j < (countsOf e.inputs).getD i 0) (h : p.e = valueAt e.inputs i j) :
    p.index = i ∧ p.nonzero = j := by
  have := List.inj_on_of_nodup_map hr.distinct hp (valueAt_mem_places hj) (by rw [h])
  exact ⟨congrArg Place.index this, congrArg Place.nonzero this⟩

theorem groupDirection_place (hr : Resides g e.inputs e.outputs tape) {p : Place}
    (hp : p ∈ places e.inputs) (group : List Nat) :
    groupDirection V e i group p.e = if p.index = i ∧ p.nonzero ∈ group then 1 else 0 := by
  have hpe := (mem_places_valueAt.mp hp).2
  split
  · rename_i h
    obtain ⟨rfl, hgroup⟩ := h
    refine (seeded_eq (nonzero_lt_countsOf hp) hgroup fun j hj _ hne => ?_).trans (if_pos hpe)
    exact if_neg fun heq => hne (valueAt_inj hr hp hj heq).2.symm
  · rename_i h
    rw [groupDirection, List.sum_eq_zero]
    intro x hx
    obtain ⟨j, hj, rfl⟩ := List.mem_map.mp hx
    rw [List.mem_filter, List.mem_range, decide_eq_true_eq] at hj
    refine if_neg fun heq => h ?_
    obtain ⟨hi, hnonzero⟩ := valueAt_inj hr hp hj.1 heq
    exact ⟨hi, hnonzero ▸ hj.2⟩

theorem groupDirection_free (hr : Resides g e.inputs e.outputs tape) {x : ScalarId}
    (hx : x ∈ tape.freeSymbols) (group : List Nat) : groupDirection V e i group x = 0 := by
  rw [groupDirection, List.sum_eq_zero]
  intro v hv
  obtain ⟨j, hj, rfl⟩ := List.mem_map.mp hv
  rw [List.mem_filter, List.mem_range] at hj
  exact if_neg fun heq => (hr.free hx).2 _ (valueAt_mem_places hj.1) heq.symm

/-- A unit seed moves the inputs in the direction of its group. -/
theorem moves_unitSeed (hg : g.Founded) (hr : Resides g e.inputs e.outputs tape) (group : List Nat) :
    Moves g I ρ e.inputs tape
      (unitSeed (countsOf e.inputs) i (seedMask ((countsOf e.inputs).getD i 0) group))
      (groupDirection V e i group) := by
  refine ⟨fun x hx => groupDirection_free hr hx group, fun i' k => ?_⟩
  rw [getElem?_unitSeed, getElem?_values_getD]
  split
  · rename_i hk
    refine .some ?_
    rw [groupDirection_place hr (valueAt_mem_places hk)]
    split
    · exact hg.reads_one
    · exact hg.reads_zero
  · exact .none

variable (I ρ) in
/-- **Forward sweeps of unit seeds** show, for each value of the output, sums of its partial
derivatives. -/
theorem yields_forwardColumns (hr : f.Ready g e tape) (i o : Nat) (groups : List (List Nat)) :
    Yields (f.forwardColumns e tape i o groups) g fun columns h =>
      List.Forall₂ (fun column group => ∀ k < (countsOf e.outputs).getD o 0,
        h.Reads I ρ (column.getD k .zero)
          (seeded ((countsOf e.inputs).getD i 0) group (e.partials g I ρ i o k))) columns groups := by
  intro hg
  rw [forwardColumns, hr.holds.inSizes, hr.holds.outSizes, hr.holds.nnz_inPattern]
  have hmoves : List.Forall₂ (Moves g I ρ e.inputs tape)
      (groups.map fun group =>
        unitSeed (countsOf e.inputs) i (seedMask ((countsOf e.inputs).getD i 0) group))
      (groups.map (groupDirection V e i)) := by
    rw [List.forall₂_map_left_iff, List.forall₂_map_right_iff]
    exact List.forall₂_same.mpr fun group _ => moves_unitSeed hg hr.resides group
  refine ((yields_forward_own hr.resides hmoves).bind fun res h _ hres => yields_pure ?_) hg
  rw [List.forall₂_map_right_iff] at hres
  rw [List.forall₂_map_left_iff]
  refine hres.imp fun tangent group htangent k hk => ?_
  have hread := htangent _ (valueAt_mem_places hk)
  refine hread.congr fun _ => ?_
  rw [seeded]
  refine (ScalarGraph.tangent_sum _ _ _).trans (congrArg List.sum (List.map_congr_left ?_))
  intro j hj
  rw [List.mem_filter, List.mem_range] at hj
  rw [Expressions.partials, if_pos ⟨hk, hj.1⟩, ScalarGraph.partialIn]

variable (I ρ) in
/-- **Reverse sweeps of unit seeds** show, for each value of the input, sums of partial derivatives
in it. -/
theorem yields_reverseRows (hr : f.Ready g e tape) (i o : Nat) (groups : List (List Nat)) :
    Yields (f.reverseRows e tape i o groups) g fun rows h =>
      List.Forall₂ (fun row group => ∀ j < (countsOf e.inputs).getD i 0,
        h.Reads I ρ (row.getD j .zero)
          (seeded ((countsOf e.outputs).getD o 0) group fun k => e.partials g I ρ i o k j))
        rows groups := by
  intro hg
  rw [reverseRows, hr.holds.inSizes, hr.holds.outSizes, hr.holds.nnz_outPattern]
  have hweights : List.Forall₂ (Bundle.Related (g.Reads I ρ))
      (groups.map fun group =>
        unitSeed (countsOf e.outputs) o (seedMask ((countsOf e.outputs).getD o 0) group))
      (groups.map (unitWeights V (countsOf e.outputs) o)) := by
    rw [List.forall₂_map_left_iff, List.forall₂_map_right_iff]
    exact List.forall₂_same.mpr fun group _ => related_unitWeights hg
  refine ((yields_reverse_own hr.resides hweights).bind fun res h _ hres => yields_pure ?_) hg
  rw [List.forall₂_map_right_iff] at hres
  rw [List.forall₂_map_left_iff]
  refine hres.imp fun adjoint group hadjoint j hj => ?_
  refine (hadjoint _ (valueAt_mem_places hj)).congr fun _ => ?_
  rw [weighted_unitWeights]
  refine congrArg List.sum (List.map_congr_left fun k hk => ?_)
  rw [List.mem_filter, List.mem_range] at hk
  rw [Expressions.partials, if_pos ⟨hk.1, hj⟩]

end Sweeps

end ScalarFunction

end Fluxion
