import Fluxion.Proofs.History.Sweeps
import Fluxion.Proofs.Jacobian.Matrix

/-!
# Gradients and tangents in Jacobians

A gradient takes one reverse sweep, seeded with ones at all nonzeros of an output with one element, and a
tangent one forward sweep along an input with one element. A Jacobian is assembled from sweeps of either
kind, several columns or rows at once. All of them show the same partial derivatives. So a gradient is the
row of the compact Jacobian, which may have been computed by forward sweeps only, and a tangent is its
column, which may have been computed by reverse sweeps only.

An output or an input with one element may have no nonzero. Then nothing is seeded, the Jacobian has no
row or no column, and the derivatives are zero.

Partial derivatives are those of the expressions of the function, where free symbols have values as the
inputs do. They do not change when the graph grows, so it does not matter in which of its later states a
derivative is made, nor by which function of these expressions.

## Main definitions

* `ScalarBuilder.TakesEntries`, `MatrixBuilder.TakesEntries` — derivatives that are entries of a Jacobian
* `MatrixGraph.Becomes` — a later state of a graph
* `ScalarFunction.OppositeSweeps`, `MatrixFunction.OppositeSweeps` — gradients and tangents are in
  Jacobians

## Main results

* `ScalarFunction.Shows.row`, `ScalarFunction.Shows.column` — Jacobians with one row or one column
* `ScalarFunction.exists_tang` — tangents of scalar functions
* `MatrixFunction.Ready.slope_assigned` — partial derivatives do not depend on the state of the graph
* `MatrixFunction.Ready.evaluate_grad`, `MatrixFunction.Ready.evaluate_tang` — what gradients and tangents
  evaluate to
* `oppositeSweeps_initialized` — **gradients and tangents agree with Jacobians** after every history
-/

namespace Fluxion

open MatrixBuilder MatrixGraph

variable {V : Type} [CommRing V]

/-! ### One row or one column -/

theorem Pattern.nnz_le_numel (p : Pattern) : p.nnz ≤ p.numel := by
  have hsubset : p.linearIndices ⊆ List.range p.numel := fun _ hx =>
    List.mem_range.mpr (lt_numel_of_mem_linearIndices hx)
  have hlength := (List.subperm_of_subset p.pairwise_linearIndices.nodup hsubset).length_le
  rwa [length_linearIndices, List.length_range] at hlength

theorem Pattern.nnz_le_one {p : Pattern} (hshape : p.shape = (1, 1)) : p.nnz ≤ 1 := by
  obtain ⟨hrows, hcols⟩ := Prod.mk.inj hshape
  have hle := p.nnz_le_numel
  rwa [numel, hrows, hcols] at hle

/-- One nonzero or none, all of them together. -/
theorem seeded_range_of_le_one {n : Nat} (hn : n ≤ 1) (x : Nat → V) :
    seeded n (List.range n) x = if n = 0 then 0 else x 0 := by
  match n with
  | 0 => rfl
  | 1 => simp [seeded]

/-- Derivatives of all nonzeros together are the entries of a row or a column, and zero if there is no
nonzero. -/
theorem eq_entries_of_seeded {values : List V} {count n : Nat} {x : Nat → Nat → V} {entry : Nat → V}
    (hvalues : values = (List.range count).map fun k => seeded n (List.range n) (x k))
    (hentry : ∀ k < count, entry k = seeded n (List.range n) (x k)) :
    values = (List.range count).map entry ∧ (n = 0 → values = List.replicate count 0) := by
  refine ⟨hvalues.trans (List.map_congr_left fun k hk => ?_), fun hnone => ?_⟩
  · exact (hentry k (List.mem_range.mp hk)).symm
  · subst hnone
    simp [hvalues, seeded]

omit [CommRing V] in
theorem SparseMatrix.map_values {α : Type} {m : SparseMatrix α} {p : Pattern} {v : α → V} {w : Nat → V}
    (fill : α) (hm : m.pattern = p) (hw : ∀ k < p.nnz, v (m.values.getD k fill) = w k) :
    m.values.map v = (List.range p.nnz).map w := by
  have hlength : m.values.length = p.nnz := hm ▸ m.length_values
  refine List.ext_getElem (by rw [List.length_map, List.length_map, List.length_range, hlength])
    fun k hk hk' => ?_
  rw [List.length_map] at hk
  rw [List.getElem_map, List.getElem_map, List.getElem_range, ← hw k (hlength ▸ hk),
    List.getD_eq_getElem _ _ hk]

namespace ScalarFunction.Shows

variable {J : Nat → Nat → V} {output input : Pattern} {entry : Nat → Nat → V} {k : Nat}

/-- The row of a compact Jacobian of an output that has one nonzero at most. -/
theorem row (h : Shows J output input true entry) (hone : output.nnz ≤ 1) (hk : k < input.nnz) :
    entry 0 k = seeded output.nnz (List.range output.nnz) fun l => J l k := by
  rw [seeded_range_of_le_one hone]
  split
  · rename_i hnone
    exact h.other 0 k (.inl fun ⟨l, hl, _⟩ => by omega)
  · exact h.place 0 (by omega) k hk

/-- The column of a compact Jacobian in an input that has one nonzero at most. -/
theorem column (h : Shows J output input true entry) (hone : input.nnz ≤ 1) (hk : k < output.nnz) :
    entry k 0 = seeded input.nnz (List.range input.nnz) fun j => J k j := by
  rw [seeded_range_of_le_one hone]
  split
  · rename_i hnone
    exact h.other k 0 (.inr fun ⟨l, hl, _⟩ => by omega)
  · exact h.place k hk 0 (by omega)

end ScalarFunction.Shows

/-! ### Scalar functions -/

namespace ScalarFunction

variable {f f' : ScalarFunction} {g h : ScalarGraph} {e e' : Expressions} {tape tape' : ScalarTape}
  {i o : Nat}

/-- The tangent is stored on the pattern of the output, and it is read as the derivatives. -/
theorem exists_tang (hr : f.Ready g e tape) (hg : g.Founded) (hi : i < f.inCount)
    (ho : o < f.outCount) (hshape : (f.inPattern i).shape = (1, 1)) :
    ∃ m h, f.tang i o g = .ok m h ∧ g.Grows h ∧ m.pattern = f.outPattern o ∧
      ∀ {V : Type} [CommRing V] (I : Interpretation V) (ρ : ScalarId → V), I.Exact h →
        ∀ k < (f.outPattern o).nnz, h.value I ρ (m.values.getD k .zero)
          = seeded (f.inPattern i).nnz (List.range (f.inPattern i).nnz) (e.partials g I ρ i o k) := by
  have htang : ∀ {V : Type} [CommRing V] (I : Interpretation V) (ρ : ScalarId → V),
      ScalarBuilder.Yields (f.tang i o) g fun m h => m.pattern = f.outPattern o ∧
        ∀ k < (f.outPattern o).nnz, h.Reads I ρ (m.values.getD k .zero)
          (seeded (f.inPattern i).nnz (List.range (f.inPattern i).nnz) (e.partials g I ρ i o k)) := by
    intro V _ I ρ
    rw [tang]
    refine ScalarBuilder.yields_get_bind (ScalarBuilder.yields_ofExcept_bind (hr.request_eq hi ho) ?_)
    dsimp only
    rw [if_neg (not_not.mpr hshape)]
    refine ScalarBuilder.yields_ofExcept_bind hr.tape_eq ?_
    refine (yields_forwardColumns I ρ hr i o [List.range (f.inPattern i).nnz]).bind
      fun columns h hgh hcolumns => ScalarBuilder.yields_pure ⟨rfl, fun k hk => ?_⟩
    cases hcolumns with
    | cons hcolumn hnil =>
      cases hnil
      rw [List.headD_cons, SparseMatrix.getD_fitted hk]
      rw [← hr.holds.nnz_outPattern, ← hr.holds.nnz_inPattern] at hcolumn
      exact hcolumn k hk
  obtain ⟨m, h, hrun, hgrow, hpattern, -⟩ := htang Interpretation.trivial 0 hg
  refine ⟨m, h, hrun, hgrow, hpattern, fun I ρ hexact k hk => ?_⟩
  exact (((htang I ρ).of_run hg hrun).2.2 k hk).2 hexact

/-- Partial derivatives do not change when the graph grows. -/
theorem Ready.partials_grow (hr : f.Ready g e tape) (hgrow : g.Grows h) (I : Interpretation V)
    (ρ : ScalarId → V) : e.partials h I ρ i o = e.partials g I ρ i o := by
  funext k j
  rw [Expressions.partials, Expressions.partials]
  split
  · rename_i hkj
    have hhas : g.Has (valueAt e.outputs o k) := hr.resides.has_output (valueAt_mem_places hkj.1)
    rw [ScalarGraph.partialIn, ScalarGraph.partialIn, ScalarGraph.tangent_eq_snd,
      ScalarGraph.tangent_eq_snd]
    exact congrArg TrivSqZeroExt.snd (ScalarGraph.evaluate_grow hgrow hhas)
  · rfl

/-- A promise of symmetry is kept by a Jacobian with one row or one column. -/
theorem Ready.partials_comm (hr : f.Ready g e tape) (I : Interpretation V) (ρ : ScalarId → V)
    (hone : (f.outPattern o).nnz ≤ 1 ∨ (f.inPattern i).nnz ≤ 1)
    (hsquare : (f.outPattern o).nnz = (f.inPattern i).nnz) (k j : Nat) :
    e.partials g I ρ i o k j = e.partials g I ρ i o j k := by
  rw [hr.holds.nnz_outPattern, hr.holds.nnz_inPattern] at hone hsquare
  rw [Expressions.partials, Expressions.partials, hsquare]
  by_cases hkj : k < (ScalarTape.countsOf e.inputs).getD i 0 ∧
      j < (ScalarTape.countsOf e.inputs).getD i 0
  · obtain rfl : k = j := by omega
    rfl
  · rw [if_neg hkj, if_neg fun hjk => hkj hjk.symm]

/-- Functions of the same expressions have the same partial derivatives. -/
theorem Expressions.partials_eq (hins : e'.inputs = e.inputs) (houts : e'.outputs = e.outputs)
    (I : Interpretation V) (ρ : ScalarId → V) : e'.partials g I ρ i o = e.partials g I ρ i o := by
  funext k j
  rw [Expressions.partials, Expressions.partials, hins, houts]

/-- **Compact Jacobians** of outputs or inputs with one element are there in all later states of the
graph, for all functions of the same expressions, and show the same partial derivatives. -/
theorem Ready.shows_compact (hr : f.Ready g e tape) (hr' : f'.Ready g e' tape') (hg : g.Founded)
    (hins : e'.inputs = e.inputs) (houts : e'.outputs = e.outputs) (hi : i < f.inCount)
    (ho : o < f.outCount) (hone : (f.outPattern o).nnz ≤ 1 ∨ (f.inPattern i).nnz ≤ 1)
    (symmetric : Bool) (hgrow : g.Grows h) :
    ∃ m h', f'.jac i o true symmetric h = .ok m h' ∧
      ∀ {V : Type} [CommRing V] (I : Interpretation V) (ρ : ScalarId → V), I.Exact h' →
        Shows (e.partials g I ρ i o) (f.outPattern o) (f.inPattern i) true (h'.entry I ρ m) := by
  have hinPatterns : f'.inPatterns = f.inPatterns := by
    rw [hr'.holds.inPatterns, hins, ← hr.holds.inPatterns]
  have houtPatterns : f'.outPatterns = f.outPatterns := by
    rw [hr'.holds.outPatterns, houts, ← hr.holds.outPatterns]
  have hin : f'.inPattern i = f.inPattern i := by rw [inPattern, hinPatterns, inPattern]
  have hout : f'.outPattern o = f.outPattern o := by rw [outPattern, houtPatterns, outPattern]
  have hgrown := hr'.grow hgrow
  obtain ⟨m, h', hrun, -, hshows⟩ := exists_jac hgrown (hg.grow hgrow)
    (by rwa [inCount, hinPatterns]) (by rwa [outCount, houtPatterns]) true symmetric (.inl rfl)
  refine ⟨m, h', hrun, fun I ρ hexact => ?_⟩
  have hshown := hshows I ρ hexact fun _ hsquare =>
    hgrown.partials_comm I ρ (by rwa [hout, hin]) hsquare
  rwa [hr'.partials_grow hgrow, Expressions.partials_eq hins houts, hout, hin] at hshown

end ScalarFunction

/-- Derivatives that are requested in one graph are entries of a Jacobian that is requested in another.
They are there, on a pattern, and they evaluate to these entries, whatever the symbols are. If the seed
that they are along has no nonzero, they are zero. -/
def ScalarBuilder.TakesEntries (derivatives jacobian : ScalarBuilder (SparseMatrix ScalarId))
    (g g' : ScalarGraph) (seed p : Pattern) (place : Nat → Nat × Nat) : Prop :=
  ∃ m h m' h', derivatives g = .ok m h ∧ jacobian g' = .ok m' h' ∧ m.pattern = p ∧
    ∀ (V : Type) [CommRing V] (I : Interpretation V) (ρ : ScalarId → V), I.Exact h → I.Exact h' →
      m.values.map (h.value I ρ)
          = (List.range p.nnz).map (fun k => h'.entry I ρ m' (place k).1 (place k).2) ∧
        (seed.nnz = 0 → m.values.map (h.value I ρ) = List.replicate p.nnz 0)

namespace ScalarFunction

variable {f f' : ScalarFunction} {g : ScalarGraph} {e e' : Expressions} {tape tape' : ScalarTape}

/-- In all later states of the graph, gradients of outputs with one element and tangents along inputs with
one element are there, on the pattern of the input or the output, and they evaluate to the row or the
column of the compact Jacobian of `f'`, which is there, too: in the mode opposite to theirs as with all
other options. They are zero if the output or the input has no nonzero. -/
structure OppositeSweeps (f f' : ScalarFunction) (g : ScalarGraph) : Prop where
  grad : ∀ i o, i < f.inCount → o < f.outCount → (f.outPattern o).shape = (1, 1) →
    ∀ (symmetric : Bool) (h h' : ScalarGraph), g.Grows h → g.Grows h' →
      ScalarBuilder.TakesEntries (f.grad i o) (f'.jac i o true symmetric) h h' (f.outPattern o)
        (f.inPattern i) fun k => (0, k)
  tang : ∀ i o, i < f.inCount → o < f.outCount → (f.inPattern i).shape = (1, 1) →
    ∀ (symmetric : Bool) (h h' : ScalarGraph), g.Grows h → g.Grows h' →
      ScalarBuilder.TakesEntries (f.tang i o) (f'.jac i o true symmetric) h h' (f.inPattern i)
        (f.outPattern o) fun k => (k, 0)

theorem Ready.oppositeSweeps (hr : f.Ready g e tape) (hr' : f'.Ready g e' tape') (hg : g.Founded)
    (hins : e'.inputs = e.inputs) (houts : e'.outputs = e.outputs) : f.OppositeSweeps f' g where
  grad i o hi ho hshape symmetric h h' hgh hgh' := by
    have hone := Pattern.nnz_le_one hshape
    obtain ⟨m, k, hrun, -, hpattern, -, hvalues⟩ :=
      exists_grad (hr.grow hgh) (hg.grow hgh) hi ho hshape
    obtain ⟨m', k', hrun', hshows⟩ :=
      hr.shows_compact hr' hg hins houts hi ho (.inl hone) symmetric hgh'
    refine ⟨m, k, m', k', hrun, hrun', hpattern, fun V _ I ρ hexact hexact' => ?_⟩
    refine eq_entries_of_seeded (SparseMatrix.map_values .zero hpattern fun l hl => ?_)
      fun l hl => (hshows I ρ hexact').row hone hl
    rw [hvalues I ρ hexact l hl, Expressions.gradient, hr.partials_grow hgh,
      ← hr.holds.nnz_outPattern]
  tang i o hi ho hshape symmetric h h' hgh hgh' := by
    have hone := Pattern.nnz_le_one hshape
    obtain ⟨m, k, hrun, -, hpattern, hvalues⟩ :=
      exists_tang (hr.grow hgh) (hg.grow hgh) hi ho hshape
    obtain ⟨m', k', hrun', hshows⟩ :=
      hr.shows_compact hr' hg hins houts hi ho (.inr hone) symmetric hgh'
    refine ⟨m, k, m', k', hrun, hrun', hpattern, fun V _ I ρ hexact hexact' => ?_⟩
    refine eq_entries_of_seeded (SparseMatrix.map_values .zero hpattern fun l hl => ?_)
      fun l hl => (hshows I ρ hexact').column hone hl
    rw [hvalues I ρ hexact l hl, hr.partials_grow hgh]

end ScalarFunction

/-! ### Matrix functions -/

/-- The graph has come from `g` by requests that a history has. -/
def MatrixGraph.Becomes (g h : MatrixGraph) : Prop :=
  g.Grows h ∧ ∃ gs fs i, LinkedHistory gs fs ∧ gs i = some h

/-- Derivatives that are requested in one graph are entries of a Jacobian that is requested in another.
Both are there if there is room. The derivatives are on a pattern, and they evaluate to these entries,
whatever the symbols are. If the seed that they are along has no nonzero, they are zero. -/
def MatrixBuilder.TakesEntries (derivatives jacobian : MatrixBuilder MatrixId) (g g' : MatrixGraph)
    (seed p : Pattern) (place : Nat → Nat × Nat) : Prop :=
  (g.Roomy → ∃ e h, derivatives g = .ok e h) ∧ (g'.Roomy → ∃ e h, jacobian g' = .ok e h) ∧
  ∀ e h e' h', derivatives g = .ok e h → jacobian g' = .ok e' h' → h.pattern? e = some p ∧
    ∀ (V : Type) [CommRing V] (I : Interpretation V) (ρ : MatrixId → Nat → V),
      I.algebra.Exact h.folds → h.DerivedExact I.algebra →
      I.algebra.Exact h'.folds → h'.DerivedExact I.algebra →
        h.evaluate I.algebra (h.assigned ρ) e = (List.range p.nnz).map (fun k =>
            h'.elementOf I.algebra (h'.assigned ρ) e' (place k).1 (place k).2) ∧
          (seed.nnz = 0 → h.evaluate I.algebra (h.assigned ρ) e = List.replicate p.nnz 0)

namespace MatrixFunction

variable {f f' : MatrixFunction} {g h k : MatrixGraph} {tape tape' : MatrixTape} {e : MatrixId}
  {i o : Nat}

/-- Options do not touch what a function is. -/
theorem Ready.withOptions (hf : f.Ready g) (options : FunctionOptions) :
    ({ f with options := options } : MatrixFunction).Ready g :=
  ⟨hf.inPatterns, hf.outPatterns, hf.resides, hf.named⟩

theorem livesIn_grow (hlives : f.livesIn g = true) (hgrow : g.Grows h) : f.livesIn h = true := by
  rwa [livesIn, hgrow.lineage]

/-- **Partial derivatives do not depend on the state of the graph.** -/
theorem Ready.slope_assigned (hf : f.Ready g) (hgh : g.Grows h) (hhk : h.Grows k)
    (I : Interpretation V) (ρ : MatrixId → Nat → V) (i o : Nat) :
    f.slope h I (k.assigned ρ) i o = f.slope g I (g.assigned ρ) i o :=
  hf.slope_congr_given hgh (fun _ ha => assigned_of_grows (hgh.trans hhk) ha) i o

theorem eq_of_map_pattern? {es : List MatrixId} {ps qs : List Pattern}
    (hps : es.map g.pattern? = ps.map some) (hqs : es.map g.pattern? = qs.map some) : qs = ps :=
  List.map_injective_iff.mpr (Option.some_injective _) (hqs.symm.trans hps)

/-- A promise of symmetry is kept by a Jacobian with one row or one column. -/
theorem Ready.slope_comm_of_le_one {I : Interpretation V} {given : MatrixId → Option (List V)}
    (hf : f.Ready g) (htape : f.tape? = some tape) (hg : g.Sound I given)
    (hgiven : ∀ e ∈ f.inputs, ∃ values, given e = some values) (hi : i < f.inCount)
    (ho : o < f.outCount) (hone : (f.outPattern o).nnz ≤ 1 ∨ (f.inPattern i).nnz ≤ 1)
    (hsquare : (f.outPattern o).nnz = (f.inPattern i).nnz) (n j : Nat) :
    f.slope g I given i o n j = f.slope g I given i o j n := by
  refine hf.slope_comm htape hg hgiven hi ho hsquare rfl (fun n hn j hj => ?_) n j
  obtain rfl : n = j := by omega
  rfl

/-- **Compact Jacobians** of outputs or inputs with one element show the same partial derivatives in all
later states of the graph, for all functions of the same expressions. -/
theorem Ready.shows_compact (hf : f.Ready g) (hf' : f'.Ready g) (htape' : f'.tape? = some tape')
    (hins : f'.inputs = f.inputs) (houts : f'.outputs = f.outputs) (hi : i < f.inCount)
    (ho : o < f.outCount) (hone : (f.outPattern o).nnz ≤ 1 ∨ (f.inPattern i).nnz ≤ 1)
    {symmetric : Bool} (hh : g.Becomes h) (hrun : f'.jac i o true symmetric h = .ok e k)
    (I : Interpretation V) (ρ : MatrixId → Nat → V) (hexact : I.algebra.Exact k.folds)
    (hderived : k.DerivedExact I.algebra) :
    ScalarFunction.Shows (f.slope g I (g.assigned ρ) i o) (f.outPattern o) (f.inPattern i) true
      (k.elementOf I.algebra (k.assigned ρ) e) := by
  obtain ⟨hgh, gs, fs, id, hist, hid⟩ := hh
  have htyped := hist.history.invariant.2.1 _ _ hid
  have hinPatterns : f'.inPatterns = f.inPatterns :=
    eq_of_map_pattern? hf.inPatterns (hins ▸ hf'.inPatterns)
  have houtPatterns : f'.outPatterns = f.outPatterns :=
    eq_of_map_pattern? hf.outPatterns (houts ▸ hf'.outPatterns)
  have hin : f'.inPattern i = f.inPattern i := by rw [inPattern, hinPatterns, inPattern]
  have hout : f'.outPattern o = f.outPattern o := by rw [outPattern, houtPatterns, outPattern]
  have hgrown := hf'.grow hgh
  obtain ⟨hhk, -, -⟩ := (keeps_jac (fun _ => hgrown) i o true symmetric).of_run htyped hrun
  have hgiven := (hgrown.grow hhk).exists_assigned htape' ρ
  obtain ⟨-, -, -, hshows⟩ := (shows_jac_slope I i o true (fun _ => hgrown)
    (hist.routinesCompiled id h hid) htape' hgiven fun _ hsquare hr =>
      hgrown.slope_comm_of_le_one htape' ⟨htyped, hr.admits⟩ hgiven (by rwa [inCount, hins])
        (by rwa [outCount, houts]) (by rwa [hout, hin]) hsquare).of_run htyped hrun
  have hshown := hshows ⟨admits_assigned hexact, hderived⟩
  have hslope : f'.slope g I (g.assigned ρ) i o = f.slope g I (g.assigned ρ) i o := by
    funext n j
    rw [slope, slopes, slope, slopes, hins, houts, hout]
  rwa [hf'.slope_assigned hgh hhk, hslope, hout, hin] at hshown

/-- In all later states of the graph, gradients of outputs with one element and tangents along inputs with
one element are there if there is room, on the pattern of the input or the output, and they evaluate to
the row or the column of the compact Jacobian of `f'`: in the mode opposite to theirs as with all other
options. They are zero if the output or the input has no nonzero. -/
structure OppositeSweeps (f f' : MatrixFunction) (g : MatrixGraph) : Prop where
  grad : ∀ i o, i < f.inCount → o < f.outCount → (f.outPattern o).shape = (1, 1) →
    ∀ (symmetric : Bool) (h h' : MatrixGraph), g.Becomes h → g.Becomes h' →
      MatrixBuilder.TakesEntries (f.grad i o) (f'.jac i o true symmetric) h h' (f.outPattern o)
        (f.inPattern i) fun k => (0, k)
  tang : ∀ i o, i < f.inCount → o < f.outCount → (f.inPattern i).shape = (1, 1) →
    ∀ (symmetric : Bool) (h h' : MatrixGraph), g.Becomes h → g.Becomes h' →
      MatrixBuilder.TakesEntries (f.tang i o) (f'.jac i o true symmetric) h h' (f.inPattern i)
        (f.outPattern o) fun k => (k, 0)

theorem Ready.of_becomes (hf : f.Ready g) (hlives : f.livesIn g = true) (hh : g.Becomes h) :
    f.Ready h ∧ f.livesIn h = true ∧ h.WellTyped := by
  obtain ⟨hgh, gs, fs, id, hist, hid⟩ := hh
  exact ⟨hf.grow hgh, livesIn_grow hlives hgh, hist.history.invariant.2.1 _ _ hid⟩

/-- **Gradients** evaluate to partial derivatives, in all later states of the graph. -/
theorem Ready.evaluate_grad (hf : f.Ready g) (htape : f.tape? = some tape) (hh : g.Becomes h)
    (hrun : f.grad i o h = .ok e k) : k.pattern? e = some (f.inPattern i) ∧
      ∀ {V : Type} [CommRing V] (I : Interpretation V) (ρ : MatrixId → Nat → V),
        I.algebra.Exact k.folds → k.DerivedExact I.algebra →
        k.evaluate I.algebra (k.assigned ρ) e = (List.range (f.inPattern i).nnz).map fun j =>
          seeded (f.outPattern o).nnz (List.range (f.outPattern o).nnz) fun n =>
            f.slope g I (g.assigned ρ) i o n j := by
  obtain ⟨hgh, gs, fs, id, hist, hid⟩ := hh
  have htyped := hist.history.invariant.2.1 _ _ hid
  have hgrown := hf.grow hgh
  obtain ⟨hhk, -, hpattern⟩ := (keeps_grad (fun _ => hgrown) i o).of_run htyped hrun
  refine ⟨hpattern, fun I ρ hexact hderived => ?_⟩
  have hr : k.Reliable I (k.assigned ρ) := ⟨admits_assigned hexact, hderived⟩
  obtain ⟨-, -, -, -, -, hstores⟩ := (stores_grad_slope I (fun _ => hgrown)
    (hist.routinesCompiled id h hid) htape ((hgrown.grow hhk).exists_assigned htape ρ) i o).of_run
      htyped hrun
  rw [(hstores hr).values hr.admits, Pattern.elements_numbered, hf.slope_assigned hgh hhk]

/-- **Tangents** evaluate to partial derivatives, in all later states of the graph. -/
theorem Ready.evaluate_tang (hf : f.Ready g) (htape : f.tape? = some tape) (hh : g.Becomes h)
    (hrun : f.tang i o h = .ok e k) : k.pattern? e = some (f.outPattern o) ∧
      ∀ {V : Type} [CommRing V] (I : Interpretation V) (ρ : MatrixId → Nat → V),
        I.algebra.Exact k.folds → k.DerivedExact I.algebra →
        k.evaluate I.algebra (k.assigned ρ) e = (List.range (f.outPattern o).nnz).map fun n =>
          seeded (f.inPattern i).nnz (List.range (f.inPattern i).nnz) fun j =>
            f.slope g I (g.assigned ρ) i o n j := by
  obtain ⟨hgh, gs, fs, id, hist, hid⟩ := hh
  have htyped := hist.history.invariant.2.1 _ _ hid
  have hgrown := hf.grow hgh
  obtain ⟨hhk, -, hpattern⟩ := (keeps_tang (fun _ => hgrown) i o).of_run htyped hrun
  refine ⟨hpattern, fun I ρ hexact hderived => ?_⟩
  have hr : k.Reliable I (k.assigned ρ) := ⟨admits_assigned hexact, hderived⟩
  obtain ⟨-, -, -, -, -, hstores⟩ := (stores_tang_slope I (fun _ => hgrown) htape
    ((hgrown.grow hhk).exists_assigned htape ρ) i o).of_run htyped hrun
  rw [(hstores hr).values hr.admits, Pattern.elements_numbered, hf.slope_assigned hgh hhk]

theorem Ready.oppositeSweeps (hf : f.Ready g) (hf' : f'.Ready g) (htape : f.tape? = some tape)
    (htape' : f'.tape? = some tape') (hlives : f.livesIn g = true) (hlives' : f'.livesIn g = true)
    (hins : f'.inputs = f.inputs) (houts : f'.outputs = f.outputs) : f.OppositeSweeps f' g where
  grad i o hi ho hshape symmetric h h' hh hh' := by
    have hone := Pattern.nnz_le_one hshape
    obtain ⟨hgrown, hlived, htyped⟩ := hf.of_becomes hlives hh
    obtain ⟨hgrown', hlived', htyped'⟩ := hf'.of_becomes hlives' hh'
    refine ⟨fun hroomy => hgrown.exists_grad htape hlived htyped hroomy hi ho hshape,
      fun hroomy => hgrown'.exists_jac htape' hlived' htyped' hroomy (by rwa [inCount, hins])
        (by rwa [outCount, houts]) true symmetric,
      fun e k e' k' hrun hrun' => ?_⟩
    obtain ⟨hpattern, hvalues⟩ := hf.evaluate_grad htape hh hrun
    refine ⟨hpattern, fun V _ I ρ hexact hderived hexact' hderived' => ?_⟩
    have hshown := hf.shows_compact hf' htape' hins houts hi ho (.inl hone) hh' hrun' I ρ hexact'
      hderived'
    exact eq_entries_of_seeded (hvalues I ρ hexact hderived) fun l hl => hshown.row hone hl
  tang i o hi ho hshape symmetric h h' hh hh' := by
    have hone := Pattern.nnz_le_one hshape
    obtain ⟨hgrown, hlived, htyped⟩ := hf.of_becomes hlives hh
    obtain ⟨hgrown', hlived', htyped'⟩ := hf'.of_becomes hlives' hh'
    refine ⟨fun hroomy => hgrown.exists_tang htape hlived htyped hroomy hi ho hshape,
      fun hroomy => hgrown'.exists_jac htape' hlived' htyped' hroomy (by rwa [inCount, hins])
        (by rwa [outCount, houts]) true symmetric,
      fun e k e' k' hrun hrun' => ?_⟩
    obtain ⟨hpattern, hvalues⟩ := hf.evaluate_tang htape hh hrun
    refine ⟨hpattern, fun V _ I ρ hexact hderived hexact' hderived' => ?_⟩
    have hshown := hf.shows_compact hf' htape' hins houts hi ho (.inr hone) hh' hrun' I ρ hexact'
      hderived'
    exact eq_entries_of_seeded (hvalues I ρ hexact hderived) fun l hl => hshown.column hone hl

end MatrixFunction

/-! ### After every history -/

/-- **Gradients and tangents agree with Jacobians** after every history of requests for scalar graphs and
for matrix graphs. They do so for every two initialized functions of the same expressions in a graph that
passes the check of ownership of both, so for one function and itself, and with any options. -/
theorem oppositeSweeps_initialized {gs : GraphId → Option ScalarGraph} {fs : List ScalarFunction}
    (hist : ScalarHistory gs fs) {ms : GraphId → Option MatrixGraph} {Fs : List MatrixFunction}
    (linked : LinkedHistory ms Fs) (options : FunctionOptions) :
    (∀ f ∈ fs, ∀ k ∈ fs, ∀ e tape e' tape' id g, f.stage = .initialized e tape →
      k.stage = .initialized e' tape' → e'.inputs = e.inputs → e'.outputs = e.outputs →
      gs id = some g → f.livesIn g = true → k.livesIn g = true →
        f.OppositeSweeps { k with options := options } g) ∧
    (∀ f ∈ Fs, ∀ k ∈ Fs, ∀ tape tape' id g, f.tape? = some tape → k.tape? = some tape' →
      k.inputs = f.inputs → k.outputs = f.outputs →
      ms id = some g → f.livesIn g = true → k.livesIn g = true →
        f.OppositeSweeps { k with options := options } g) := by
  constructor
  · intro f hf k hk e tape e' tape' id g hstage hstage' hins houts hg hlives hlives'
    exact (hist.ready hf hstage hg hlives).oppositeSweeps
      ((hist.ready hk hstage' hg hlives').withOptions options) (hist.founded hg) hins houts
  · intro f hf k hk tape tape' id g htape htape' hins houts hg hlives hlives'
    exact (linked.history.ready hf hg hlives).oppositeSweeps
      ((linked.history.ready hk hg hlives').withOptions options) htape htape' hlives hlives' hins
      houts

/-! ### A scaled norm -/

namespace ScaledNorm

open ScaledSquare (graphAfter eq_ok_of_run' integers derivedExact_of_nil)

/-- A column, a free scalar, and an input without nonzeros, the scalar times the column, that times the
column again, and the sum of that. The sum times the input without nonzeros has none. -/
def requests : List MatrixRequest :=
  [.symbol "x" (.denseColumn 2), .symbol "p" .scalar, .symbol "d" (.ofPositions 1 1 []),
    .binary .mul ⟨1⟩ ⟨0⟩, .binary .mul ⟨3⟩ ⟨0⟩, .sum ⟨4⟩, .binary .mul ⟨5⟩ ⟨2⟩]

def graph : MatrixGraph := requests.foldl (fun g r => r.after g) (.new (.numbered 0))

def tape : MatrixTape where
  instrs := [⟨.free 0, [], some 0, .scalar, ⟨1⟩⟩, ⟨.input 0, [], some 1, .denseColumn 2, ⟨0⟩⟩,
    ⟨.binary .mul, [0, 1], some 0, .denseColumn 2, ⟨3⟩⟩,
    ⟨.binary .mul, [0, 1], some 1, .denseColumn 2, ⟨4⟩⟩,
    ⟨.scatter [some 0, some 0], [1], some 1, .scalar, ⟨5⟩⟩, ⟨.output 0, [1], none, .scalar, ⟨5⟩⟩,
    ⟨.constant [], [], some 1, .ofPositions 1 1 [], ⟨6⟩⟩,
    ⟨.output 1, [1], none, .ofPositions 1 1 [], ⟨6⟩⟩]
  freeSymbols := [⟨1⟩]
  freeNames := ["p"]
  workSize := 2

def functionWith (options : FunctionOptions) (tape? : Option MatrixTape) : MatrixFunction where
  options := options
  owner := ⟨.numbered 0, 6⟩
  inputs := [⟨0⟩, ⟨2⟩]
  outputs := [⟨5⟩, ⟨6⟩]
  inPatterns := [.denseColumn 2, .ofPositions 1 1 []]
  outPatterns := [.scalar, .ofPositions 1 1 []]
  inNames := ["x", "d"]
  tape? := tape?

def forwardOnly : FunctionOptions where
  mode := .forward

theorem history : LinkedHistory (Function.update (fun _ => none) (.numbered 0) (some graph))
    [functionWith {} (some tape), functionWith {} none] := by
  have hgraph := @LinkedHistory.afterAll _ _ _ _ requests (by decide)
    (by simp [requests, MatrixRequest.object?]) (.new (.numbered 0) .start rfl)
  have hdeclared := hgraph.declare (i := .numbered 0) (Function.update_self ..)
    (show MatrixFunction.declare graph [⟨0⟩, ⟨2⟩] [⟨5⟩, ⟨6⟩] {} = .ok (functionWith {} none) from rfl)
  exact .init hdeclared (i := .numbered 0) (Function.update_self ..) (List.mem_singleton_self _)
    (show (functionWith {} none).init graph = .ok (functionWith {} (some tape)) from rfl)

/-- The product of two numbers as a function. -/
def product : ScalarFunction := Product.functionAt (.initialized Product.expressions Product.tape)

theorem becomes_graph : graph.Becomes graph := ⟨.refl graph, _, _, _, history, Function.update_self ..⟩

/-- The graph after the gradient of an output, and after its Jacobian, computed by forward sweeps. -/
def afterGrad (o : Nat) : MatrixGraph := graphAfter ((functionWith {} (some tape)).grad 0 o) graph

def afterJac (o : Nat) : MatrixGraph :=
  graphAfter ((functionWith forwardOnly (some tape)).jac 0 o true false) graph

theorem grad_eq : (functionWith {} (some tape)).grad 0 0 graph = .ok ⟨15⟩ (afterGrad 0) ∧
    (functionWith {} (some tape)).grad 0 1 graph = .ok ⟨8⟩ (afterGrad 1) :=
  ⟨eq_ok_of_run' (by decide +kernel), eq_ok_of_run' (by decide +kernel)⟩

theorem jac_eq :
    (functionWith forwardOnly (some tape)).jac 0 0 true false graph = .ok ⟨20⟩ (afterJac 0) ∧
      (functionWith forwardOnly (some tape)).jac 0 1 true false graph = .ok ⟨14⟩ (afterJac 1) :=
  ⟨eq_ok_of_run' (by decide +kernel), eq_ok_of_run' (by decide +kernel)⟩

theorem exact_after (o : Nat) (ho : o < 2) :
    (integers.algebra.Exact (afterGrad o).folds ∧ (afterGrad o).DerivedExact integers.algebra) ∧
      integers.algebra.Exact (afterJac o).folds ∧ (afterJac o).DerivedExact integers.algebra := by
  have hexact : ∀ {g : MatrixGraph}, g.folds = [] → integers.algebra.Exact g.folds :=
    fun h => h ▸ fun _ hmem => absurd hmem List.not_mem_nil
  have hfolds : ∀ o < 2, (afterGrad o).folds = [] ∧ (afterJac o).folds = [] := by decide +kernel
  have hderived : ∀ o < 2, (afterGrad o).derived = [] ∧ (afterJac o).derived = [] := by
    decide +kernel
  exact ⟨⟨hexact (hfolds o ho).1, derivedExact_of_nil (hderived o ho).1⟩, hexact (hfolds o ho).2,
    derivedExact_of_nil (hderived o ho).2⟩

/-- The column is `(3, 4)`, and the scalar is `5`. -/
def values (e : MatrixId) (k : Nat) : Int := ([[3, 4], [5]].getD e.index []).getD k 0

/-- The gradient of a scaled norm is twice the scalar times the column, and forward sweeps find the same
row. That of the output without nonzeros is zero. The product of two numbers agrees with its Jacobian as
well. -/
theorem oppositeSweeps_integers :
    product.OppositeSweeps { product with options := forwardOnly } Product.graph ∧
      (functionWith {} (some tape)).OppositeSweeps (functionWith forwardOnly (some tape)) graph ∧
      (afterGrad 0).evaluate integers.algebra ((afterGrad 0).assigned values) ⟨15⟩ = [30, 40] ∧
      (List.range 2).map ((afterJac 0).elementOf integers.algebra ((afterJac 0).assigned values) ⟨20⟩ 0)
        = [30, 40] ∧
      (afterGrad 1).evaluate integers.algebra ((afterGrad 1).assigned values) ⟨8⟩ = [0, 0] := by
  obtain ⟨hscalar, hmatrix⟩ := oppositeSweeps_initialized Product.history history forwardOnly
  have hproduct := hscalar _ (List.mem_cons_self ..) _ (List.mem_cons_self ..) _ _ _ _ (.numbered 0) _
    rfl rfl rfl rfl (show Product.graphs (.numbered 0) = some Product.graph from
      Function.update_self ..) rfl rfl
  have hnorm := hmatrix _ (List.mem_cons_self ..) _ (List.mem_cons_self ..) _ _ (.numbered 0) _ rfl rfl
    rfl rfl (Function.update_self ..) rfl rfl
  have hentries := fun o ho hshape => (hnorm.grad 0 o (by decide) ho hshape false _ _ becomes_graph
    becomes_graph).2.2
  obtain ⟨hgrad, hjac⟩ := exact_after 0 (by decide)
  have hrow := ((hentries 0 (by decide) rfl _ _ _ _ grad_eq.1 jac_eq.1).2 Int integers values hgrad.1
    hgrad.2 hjac.1 hjac.2).1
  obtain ⟨hgrad', hjac'⟩ := exact_after 1 (by decide)
  have hnone := ((hentries 1 (by decide) rfl _ _ _ _ grad_eq.2 jac_eq.2).2 Int integers values hgrad'.1
    hgrad'.2 hjac'.1 hjac'.2).2 rfl
  have hgradient :
      (afterGrad 0).evaluate integers.algebra ((afterGrad 0).assigned values) ⟨15⟩ = [30, 40] := by
    decide +kernel
  exact ⟨hproduct, hnorm, hgradient, hrow.symm.trans hgradient, hnone⟩

end ScaledNorm

end Fluxion
