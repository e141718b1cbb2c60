import Fluxion.Proofs.Expansion.Function
import Fluxion.Proofs.Matrix.Embedding
import Fluxion.Proofs.Scalar.Derivatives
import Fluxion.Proofs.Scalar.Irreducible

/-!
# What derivative functions of routines compute

The two derivative functions of a routine are made by sweeps over its tape, in graphs of their own. The
forward derivative computes how the outputs move when the inputs move in a direction: what a run of the
tape over dual numbers carries beside the values. The reverse derivative computes the derivatives of the
weighted outputs, and it is enough to say so against all directions: paired with a direction of the
inputs it gives the weighted derivatives of the outputs.

The constants that were folded when a derivative function was made have to be exact.

## Main definitions

* `FunctionObject.FoldsExact` — the graph that a function keeps has folded its constants exactly
* `Bundle.pairing` — values times derivatives, summed over all places

## Main results

* `Routine.exists_forwardDerivative`, `Routine.exists_reverseDerivative` — **derivative functions can
  be made**, and embedded
* `Routine.replay_forwardDerivative` — **forward derivatives**
* `Routine.pairing_reverseDerivative` — **reverse derivatives**
-/

namespace Fluxion

open ScalarBuilder

/-! ### Bundles of dual numbers -/

section Bundles

variable {V W : Type}

/-- Values and derivatives in the same places, as dual numbers. -/
def Bundle.dual (x dx : Bundle V) : Bundle (DualNumber V) := List.zipWith (List.zipWith dualOf) x dx

theorem forall₂_length {x dx : Bundle V} (h : x.map List.length = dx.map List.length) :
    List.Forall₂ (fun a b => a.length = b.length) x dx := by
  have heq : List.Forall₂ (· = ·) (x.map List.length) (dx.map List.length) :=
    List.forall₂_eq_eq_eq ▸ h
  exact List.forall₂_map_left_iff.mp (List.forall₂_map_right_iff.mp heq)

/-- Read for its values, and read for its derivatives. -/
theorem Bundle.forall₂_dual {x dx : Bundle V} (h : x.map List.length = dx.map List.length) :
    List.Forall₂ (List.Forall₂ fun (d : DualNumber V) v => d.fst = v) (dual x dx) x ∧
      List.Forall₂ (List.Forall₂ fun (d : DualNumber V) v => d.snd = v) (dual x dx) dx := by
  have hrows := forall₂_length h
  refine ⟨forall₂_zipWith_left (hrows.imp fun a b hab => ?_),
    forall₂_zipWith_right (hrows.imp fun a b hab => ?_)⟩
  · exact forall₂_zipWith_left (f := dualOf) (List.forall₂_iff_zip.mpr ⟨hab, fun _ => rfl⟩)
  · exact forall₂_zipWith_right (f := dualOf) (List.forall₂_iff_zip.mpr ⟨hab, fun _ => rfl⟩)

/-- Dual numbers are their values and their derivatives. -/
theorem Bundle.dual_map (x : Bundle (DualNumber V)) :
    dual (x.map (·.map TrivSqZeroExt.fst)) (x.map (·.map TrivSqZeroExt.snd)) = x := by
  rw [dual, List.zipWith_map, List.zipWith_self]
  refine List.map_id'' (fun row => ?_) x
  rw [List.zipWith_map, List.zipWith_self]
  exact List.map_id'' (fun _ => rfl) row

/-- What is read as values is read as the values of dual numbers that move somewhere. -/
theorem Bundle.related_dual_fst {R : W → V → Prop} {rows : Bundle W} {x dx : Bundle V}
    (hlength : x.map List.length = dx.map List.length)
    (hrows : List.Forall₂ (List.Forall₂ R) rows x) :
    Related (fun e (d : DualNumber V) => R e d.fst) rows (dual x dx) :=
  .of_forall₂ (forall₂_meet hrows (forall₂_dual hlength).1 fun _ _ _ hrow hdual =>
    forall₂_meet hrow hdual fun _ _ _ he hd => hd ▸ he)

/-- What is read as derivatives is read as the derivatives of dual numbers. -/
theorem Bundle.related_dual_snd {R : W → V → Prop} {rows : Bundle W} {x dx : Bundle V}
    (hlength : x.map List.length = dx.map List.length)
    (hrows : List.Forall₂ (List.Forall₂ R) rows dx) :
    Related (fun e (d : DualNumber V) => R e d.snd) rows (dual x dx) :=
  .of_forall₂ (forall₂_meet hrows (forall₂_dual hlength).2 fun _ _ _ hrow hdual =>
    forall₂_meet hrow hdual fun _ _ _ he hd => hd ▸ he)

/-- Where the first parts have as many values, equal bundles have equal parts. -/
theorem Bundle.eq_of_append_eq {x x' y y' : Bundle V} (hlength : x.map List.length = x'.map List.length)
    (h : x ++ y = x' ++ y') : x = x' ∧ y = y' :=
  List.append_inj h (by simpa using congrArg List.length hlength)

/-- Values that are mapped one by one are as many as before. -/
theorem Bundle.map_length_map (f : V → W) (x : Bundle V) :
    (x.map (·.map f)).map List.length = x.map List.length := by
  rw [List.map_map]
  exact List.map_congr_left fun row _ => List.length_map f

/-- There are values for all places of matrices with so many values. -/
theorem Bundle.map_length_replicate (v : V) (counts : List Nat) :
    (counts.map fun n => List.replicate n v).map List.length = counts := by
  simp [Function.comp_def]

/-- Values in place of patterns, wrapped up and taken out again. -/
theorem ScalarFunction.forall₂_wrap {R : ScalarId → W → Prop} (ps : List Pattern)
    {rows : Bundle ScalarId} {values : Bundle W} (h : Bundle.Related R rows values)
    (hvalues : values.map List.length = ps.map Pattern.nnz) (z : ScalarId) :
    List.Forall₂ (List.Forall₂ R) ((wrap ps rows z).map SparseMatrix.values) values := by
  refine forall₂_of_rel fun i => ?_
  have hlength : values[i]?.map List.length = ps[i]?.map Pattern.nnz := by
    rw [← List.getElem?_map, hvalues, List.getElem?_map]
  rw [List.getElem?_map, wrap, List.getElem?_map, List.getElem?_zipIdx]
  cases hp : ps[i]? with
  | none =>
    rw [hp] at hlength
    rw [Option.map_eq_none_iff.mp hlength]
    exact .none
  | some p =>
    rw [hp] at hlength
    obtain ⟨row, hrow, hfits⟩ := Option.map_eq_some_iff.mp hlength
    have hrows : List.Forall₂ R (rows.getD i []) row := by
      refine forall₂_of_rel fun k => ?_
      have hk := h i k
      rwa [show values.getD i [] = row by rw [List.getD_eq_getElem?_getD, hrow]; rfl] at hk
    rw [hrow]
    refine .some ?_
    rw [Nat.zero_add, SparseMatrix.values_fitted (hrows.length_eq.trans hfits)]
    exact hrows

end Bundles

/-! ### Functions that were made in graphs of their own -/

/-- Requests that name nothing add no symbols. -/
theorem ScalarBuilder.Yields.unnamed {α : Type} {x : ScalarBuilder α} {g : ScalarGraph}
    {Q : α → ScalarGraph → Prop} (hx : Yields x g Q) (hassembled : Assembled False True x) :
    Yields x g fun a h => Q a h ∧ h.Founded ∧ ∀ e, h.isSymbol e = true → g.isSymbol e = true := by
  intro hg
  obtain ⟨a, h, hrun, hgrow, ha⟩ := hx hg
  refine ⟨a, h, hrun, hgrow, ha, hg.grow hgrow, fun e he => ?_⟩
  exact ScalarGraph.isSymbol_of_assembled hassembled (by rwa [after, hrun])

/-- A new graph holds literals only. -/
theorem ScalarGraph.not_isSymbol_new (id : GraphId) (e : ScalarId) : ¬ (new id).isSymbol e = true := by
  intro he
  obtain ⟨n, hn⟩ := has_of_isSymbol he
  rw [isSymbol, hn] at he
  obtain ⟨hlt, rfl⟩ := Array.getElem?_eq_some_iff.mp hn
  obtain ⟨i⟩ := e
  have hlt : i < 3 := hlt
  obtain rfl | rfl | rfl : i = 0 ∨ i = 1 ∨ i = 2 := by omega
  all_goals exact Bool.false_ne_true he

theorem Bundle.Related.forall_left {V W : Type} {R : V → W → Prop} {P : V → Prop} {xs : Bundle V}
    {ys : Bundle W} (h : Related R xs ys) (hP : ∀ v w, R v w → P v) : ∀ row ∈ xs, ∀ v ∈ row, P v := by
  intro row hrow v hv
  obtain ⟨i, hi⟩ := List.mem_iff_getElem?.mp hrow
  obtain ⟨k, hk⟩ := List.mem_iff_getElem?.mp hv
  have hrel := h i k
  rw [List.getD_eq_getElem?_getD, hi, Option.getD_some, hk] at hrel
  generalize (ys.getD i [])[k]? = w at hrel
  cases hrel with
  | some hvw => exact hP _ _ hvw

theorem ScalarFunction.has_of_mem_wrap {g : ScalarGraph} {ps : List Pattern} {rows : Bundle ScalarId}
    {zero : ScalarId} (hzero : g.Has zero) (hrows : ∀ row ∈ rows, ∀ e ∈ row, g.Has e) :
    ∀ e ∈ handlesOf (wrap ps rows zero), g.Has e := by
  intro e he
  obtain ⟨m, hm, he⟩ := List.mem_flatMap.mp he
  obtain ⟨⟨p, i⟩, -, rfl⟩ := List.mem_map.mp hm
  rcases List.mem_append.mp he with he | he
  · have he := List.mem_of_mem_take he
    rw [List.getD_eq_getElem?_getD] at he
    cases hi : rows[i]? with
    | none => simp [hi] at he
    | some row => exact hrows row (List.mem_of_getElem? hi) e (by simpa [hi] using he)
  · rwa [List.eq_of_mem_replicate he]

theorem ScalarFunction.makes_of_make {g : ScalarGraph} {inputs outputs : List (SparseMatrix ScalarId)}
    {options : FunctionOptions} {f : ScalarFunction} (h : make g inputs outputs options = .ok f) :
    ∃ tape, Makes g inputs outputs tape f := by
  cases hdeclare : declare g inputs outputs options with
  | error e => simp [make, hdeclare, bind, Except.bind] at h
  | ok f' =>
    simp only [make, hdeclare, bind, Except.bind, init] at h
    rw [declare] at hdeclare
    split at hdeclare
    · contradiction
    · cases hdeclare
      dsimp only at h
      cases hc : ScalarTape.compile g inputs outputs with
      | error e => split at h <;> simp [hc] at h
      | ok tape =>
        split at h
        · contradiction
        · simp only [hc, pure, Except.pure, Except.ok.injEq] at h
          exact ⟨tape, h ▸ ⟨rfl, rfl, rfl, rfl, hc⟩⟩

/-- The graph that the function keeps, if it keeps one, has folded its constants without an error. -/
def FunctionObject.FoldsExact {V : Type} (d : FunctionObject) (A : Algebra Id V) : Prop :=
  ∀ home, d.function.home = some home → A.Exact home.folds

namespace Routine

variable {V : Type} [CommRing V] {I : Interpretation V} {r s : Routine} {d : FunctionObject}

/-- The tape of a function object that can be embedded. -/
theorem tape_of_routine {tape : ScalarTape} (htape : d.function.stage.tape? = some tape)
    (h : d.routine = .ok s) : s.tape = tape := by
  have hok : d.function.tape = .ok tape := by rw [ScalarFunction.tape, htape]
  simp only [FunctionObject.routine, hok, bind, Except.bind] at h
  split at h
  · cases h
    rfl
  · contradiction

/-- What the build of a function says of its inputs and outputs, for all values of the inputs, holds of
the arguments and results of the routine. -/
theorem related_standalone {id : FunctionId} {front : String} {f : ScalarFunction}
    {build : ScalarBuilder (List (SparseMatrix ScalarId) × List (SparseMatrix ScalarId))}
    {P : Bundle V → Bundle V → Prop}
    (hbuild : ∀ ρ, Yields build (.new (.standalone id)) fun ms h => I.Exact h →
      P (ms.1.map fun m => m.values.map ρ) (ms.2.map fun m => m.values.map (h.value I ρ)))
    (hf : r.standalone id front build = .ok f) (hd : d.function = f) (hs : d.routine = .ok s)
    (hexact : d.FoldsExact I.algebra) {values : Bundle V}
    (hvalues : values.map List.length = s.inSizes) :
    P values (Id.run (s.tape.replay I.algebra values [] s.outSizes)) := by
  obtain ⟨inputs, outputs, g, k, hrun, hmake, hk⟩ := standalone_eq_ok hf
  obtain ⟨tape, hmakes⟩ := ScalarFunction.makes_of_make hmake
  have hc := ScalarTape.compiled_of_compile hmakes.compile
  have hsettle : d.function = { k with stage := .initialized ⟨inputs, outputs, some g⟩ tape } := by
    rw [hd, hk, ScalarFunction.settle, hmakes.stage]
  have htape : s.tape = tape := tape_of_routine (by rw [hsettle]; rfl) hs
  obtain ⟨hin, hout⟩ := patterns_routine hs
  have hinSizes : values.map List.length = ScalarTape.countsOf inputs := by
    rw [hvalues, inSizes, hin, hsettle, ← ScalarTape.map_nnz_pattern, ← hmakes.inPatterns]
  have houtSizes : s.outSizes = ScalarTape.countsOf outputs := by
    rw [outSizes, hout, hsettle, ← ScalarTape.map_nnz_pattern, ← hmakes.outPatterns]
  have hfolds : I.Exact g := hexact g (by rw [hsettle]; rfl)
  have hbuilt := ((hbuild (tape.reading inputs (I.algebra.constant 0.0) values [])).of_run
    (ScalarGraph.founded_new _) hrun).2 hfolds
  rw [MatrixFunction.map_reading_inputs hc hinSizes] at hbuilt
  rw [htape, houtSizes, hc.replay_eq (ScalarTape.supplies_reading hc _ values [])]
  exact hbuilt

/-- What the build of a function leaves: inputs that are all symbols since it began, and outputs that
are there. -/
structure Offers (g : ScalarGraph) (ms : List (SparseMatrix ScalarId) × List (SparseMatrix ScalarId))
    (h : ScalarGraph) : Prop where
  fresh : h.Fresh g.size (ScalarFunction.handlesOf ms.1)
  has : ∀ e ∈ ScalarFunction.handlesOf ms.2, h.Has e

/-- New symbols that were made in two steps, before requests that name nothing, are inputs of what is
built of them. -/
theorem offers_append {g h k l : ScalarGraph} {xs ys outputs : List (SparseMatrix ScalarId)}
    (hgh : g.Grows h) (hxs : h.Fresh g.size (xs.flatMap SparseMatrix.values)) (hhk : h.Grows k)
    (hys : k.Fresh h.size (ys.flatMap SparseMatrix.values)) (hkl : k.Grows l)
    (hsymbols : ∀ e, l.isSymbol e = true → k.isSymbol e = true)
    (hhas : ∀ e ∈ ScalarFunction.handlesOf outputs, l.Has e) : Offers g (xs ++ ys, outputs) l := by
  refine ⟨?_, hhas⟩
  rw [ScalarFunction.handlesOf, List.flatMap_append]
  exact (hxs.append hhk hgh.size_le hys).grow hkl hsymbols

/-- **Functions of new symbols can be made**, and embedded since there are no other symbols. -/
theorem exists_standalone {id : FunctionId} {front : String}
    {build : ScalarBuilder (List (SparseMatrix ScalarId) × List (SparseMatrix ScalarId))}
    (hbuild : Yields build (.new (.standalone id)) (Offers (.new (.standalone id)))) :
    ∃ f tape, r.standalone id front build = .ok f ∧ f.tape = .ok tape ∧ tape.freeSymbols = [] := by
  obtain ⟨⟨inputs, outputs⟩, g, hrun, hgrow, hoffers⟩ := hbuild (ScalarGraph.founded_new _)
  obtain ⟨k, tape, hmake, hmakes⟩ := ScalarFunction.make_eq_ok (r.options.derived front)
    hoffers.fresh.isSymbol hoffers.fresh.nodup hoffers.has
  refine ⟨k.settle g, tape, ?_, ?_, ?_⟩
  · simp [standalone, hrun, hmake, bind, Except.bind, pure, Except.pure]
  · rw [ScalarFunction.settle, hmakes.stage]
    rfl
  -- a symbol of the graph is new, hence an input: the literals that the graph began with are none
  · have hc := ScalarTape.compiled_of_compile hmakes.compile
    refine hc.freeSymbols_eq_nil_of_inputs fun n _ hn => ?_
    have hnew : (ScalarGraph.new (.standalone id)).size ≤ n := by
      by_contra hlt
      exact ScalarGraph.not_isSymbol_new _ ⟨n⟩
        (ScalarGraph.isSymbol_of_grows hgrow (Nat.lt_of_not_le hlt) hn)
    have hmem := hoffers.fresh.complete ⟨n⟩ hn hnew
    rw [← ScalarTape.map_e_places] at hmem
    exact List.mem_map.mp hmem

/-! ### The expressions that they are made of -/

/-- A matrix of new symbols for each pattern. -/
theorem yields_symbolsLike (letter : String) (patterns : List Pattern) {g : ScalarGraph} :
    Yields (symbolsLike letter patterns) g fun ms h =>
      h.Fresh g.size (ms.flatMap SparseMatrix.values) ∧ ms.map SparseMatrix.pattern = patterns := by
  refine (Yields.mapM_fresh (s := SparseMatrix.values) (P := fun i m => m.pattern = i.1) _
    fun i g => yields_symbolMatrix (letter ++ toString i.2) i.1).imp fun ms h _ _ hms => ?_
  refine ⟨hms.1, ?_⟩
  have hpatterns : patterns = (patterns.zipIdx.map Prod.fst) := by rw [List.zipIdx_map_fst]
  rw [hpatterns]
  exact map_eq_map_of_forall₂ hms.2.flip fun _ _ _ hp => hp

/-- Symbols are read as what they are, also in the graphs that grow from theirs. -/
theorem related_fresh {ρ : ScalarId → V} {ms : List (SparseMatrix ScalarId)} {size : Nat}
    {g h : ScalarGraph} (hms : g.Fresh size (ms.flatMap SparseMatrix.values)) (hgh : g.Grows h) :
    List.Forall₂ (List.Forall₂ fun e v => h.Reads I ρ e v) (ms.map SparseMatrix.values)
      (ms.map fun m => m.values.map ρ) := by
  refine forall₂_map_same ms fun m hm => ?_
  refine List.forall₂_map_right_iff.mpr (List.forall₂_same.mpr fun e he => ?_)
  have hsymbol := hms.isSymbol e (List.mem_flatMap.mpr ⟨m, hm, he⟩)
  exact (ScalarGraph.reads_of_isSymbol hsymbol).grow hgh

/-! ### Forward derivatives -/

/-- From values and derivatives of the inputs, derivatives of the outputs: those that a run over dual
numbers carries. -/
def Pushes (I : Interpretation V) (r : Routine) (arguments results : Bundle V) : Prop :=
  ∀ x dx : Bundle V, x.map List.length = r.inSizes → dx.map List.length = r.inSizes →
    arguments = x ++ dx → results
      = (Id.run (r.tape.replay I.dualAlgebra (Bundle.dual x dx) [] r.outSizes)).map
        (·.map TrivSqZeroExt.snd)

theorem yields_forwardExpressions (r : Routine) (ρ : ScalarId → V) {g : ScalarGraph} :
    Yields (do
      let xs ← symbolsLike "x" r.inPatterns
      let ts ← symbolsLike "t" r.inPatterns
      let (_, tangents) ← r.tape.forward scalarAlgebra (xs.map SparseMatrix.values) []
        [ts.map SparseMatrix.values] r.outSizes
      return (xs ++ ts, ScalarFunction.wrap r.outPatterns (tangents.headD []) .zero)) g
      fun ms h => Offers g ms h ∧ (I.Exact h →
        r.Pushes I (ms.1.map fun m => m.values.map ρ) (ms.2.map fun m => m.values.map (h.value I ρ))) := by
  refine (yields_symbolsLike "x" r.inPatterns).bind fun xs h hgh hxs => ?_
  refine (yields_symbolsLike "t" r.inPatterns).bind fun ts k hhk hts => ?_
  have hx := MatrixFunction.map_length_values xs ρ
  have hdx := MatrixFunction.map_length_values ts ρ
  rw [hxs.2] at hx
  rw [hts.2] at hdx
  have hseed : ScalarTape.Seeded k I ρ (xs.map SparseMatrix.values) (ts.map SparseMatrix.values)
      (Bundle.dual (xs.map fun m => m.values.map ρ) (ts.map fun m => m.values.map ρ)) :=
    ⟨Bundle.related_dual_fst (hx.trans hdx.symm) (related_fresh hxs.1 hhk),
      Bundle.related_dual_snd (hx.trans hdx.symm) (related_fresh hts.1 (.refl k))⟩
  have hhas : ∀ row ∈ xs.map SparseMatrix.values, ∀ e ∈ row, k.Has e := by
    intro row hrow e he
    obtain ⟨m, hm, rfl⟩ := List.mem_map.mp hrow
    exact ScalarGraph.has_of_isSymbol
      (ScalarGraph.isSymbol_grow hhk (hxs.1.isSymbol e (List.mem_flatMap.mpr ⟨m, hm, he⟩)))
  refine ((ScalarTape.yields_forward (I := I) (ρ := ρ) r.tape r.outSizes hhas (.cons hseed .nil)
    .nil).unnamed (ScalarTape.assembled_forward ..)).bind fun res l hkl hres => yields_pure ?_
  obtain ⟨hres, hfounded, hsymbols⟩ := hres
  refine ⟨offers_append hgh hxs.1 hhk hts.1 hkl hsymbols ?_, fun hexact x dx hxlen _ heq => ?_⟩
  · refine ScalarFunction.has_of_mem_wrap ⟨_, hfounded.zero⟩ ?_
    obtain ⟨_, tangents⟩ := res
    cases hres with
    | cons htangent _ => exact htangent.forall_left fun _ _ he => he.has
  rw [List.map_append] at heq
  obtain ⟨rfl, rfl⟩ := Bundle.eq_of_append_eq (hx.trans hxlen.symm) heq
  obtain ⟨_, tangents⟩ := res
  cases hres with
  | cons htangent hnone =>
    cases hnone
    rw [ScalarTape.replay_eq]
    have hwrap := ScalarFunction.forall₂_wrap r.outPatterns htangent (by
      rw [← ScalarTape.replay_eq]
      exact ScalarTape.map_length_replay ..) .zero
    have hrows := map_map_of_forall₂ (l.value I ρ) TrivSqZeroExt.snd hwrap fun e d he => he.2 hexact
    rw [List.map_map] at hrows
    exact hrows

/-- **Forward derivatives** of a routine compute what a run over dual numbers carries beside the
values. -/
theorem replay_forwardDerivative (hd : r.forwardDerivative = .ok d) (hs : d.routine = .ok s)
    (hexact : d.FoldsExact I.algebra) {x : Bundle (DualNumber V)}
    (hx : x.map List.length = r.inSizes) :
    Id.run (s.tape.replay I.algebra
        (x.map (·.map TrivSqZeroExt.fst) ++ x.map (·.map TrivSqZeroExt.snd)) [] s.outSizes)
      = (Id.run (r.tape.replay I.dualAlgebra x [] r.outSizes)).map (·.map TrivSqZeroExt.snd) := by
  have hlength (f : DualNumber V → V) : (x.map (·.map f)).map List.length = r.inSizes :=
    (Bundle.map_length_map f x).trans hx
  have hvalues : (x.map (·.map TrivSqZeroExt.fst) ++ x.map (·.map TrivSqZeroExt.snd)).map List.length
      = s.inSizes := by
    rw [List.map_append, hlength, hlength, inSizes, inSizes,
      (patterns_forwardDerivative hd hs).1, List.map_append]
  have hpushes : r.Pushes I _ _ := related_standalone (P := r.Pushes I)
    (fun ρ => (yields_forwardExpressions r ρ).imp fun _ _ _ _ hms => hms.2)
    (function_forwardDerivative hd) rfl hs hexact hvalues
  have hrelated := hpushes _ _ (hlength _) (hlength _) rfl
  rwa [Bundle.dual_map] at hrelated

/-! ### Reverse derivatives -/

end Routine

section Pairing

open Finset

variable {V : Type} [CommRing V]

/-- Values times derivatives, summed over all places of matrices with so many values. -/
def Bundle.pairing (counts : List Nat) (a : Bundle V) (x : Bundle (DualNumber V)) : V :=
  ∑ i ∈ range counts.length, ∑ k ∈ range (counts.getD i 0),
    (a.getD i []).getD k 0 * ((x.getD i []).getD k 0).snd

namespace ScalarTape

/-- The places of matrices with so many values. -/
def placesOf (counts : List Nat) : Finset (Nat × Nat) :=
  ((range counts.length).sigma fun i => range (counts.getD i 0)).map
    (Equiv.sigmaEquivProd Nat Nat).toEmbedding

theorem mem_placesOf {counts : List Nat} {i k : Nat} (hk : k < counts.getD i 0) :
    (i, k) ∈ placesOf counts := by
  have hi : i < counts.length := by
    by_contra hi
    rw [List.getD_eq_getElem?_getD, List.getElem?_eq_none (not_lt.mp hi)] at hk
    exact Nat.not_lt_zero k hk
  exact mem_map.mpr ⟨⟨i, k⟩, mem_sigma.mpr ⟨mem_range.mpr hi, mem_range.mpr hk⟩, rfl⟩

theorem weigh_placesOf (counts : List Nat) (a : Grid V) (b : Grid (DualNumber V)) :
    weigh (placesOf counts) a b = Bundle.pairing counts a.toBundle b.toBundle := by
  rw [weigh, placesOf, sum_map, sum_sigma]
  refine sum_congr rfl fun i _ => sum_congr rfl fun k _ => ?_
  rw [Grid.getD_toBundle, Grid.getD_toBundle]
  rfl

end ScalarTape

end Pairing

namespace ScalarTape.Compiled

variable {V : Type} [CommRing V] {g : ScalarGraph} {inputs outputs : List (SparseMatrix ScalarId)}
  {tape : ScalarTape}

/-- No place of the inputs is loaded twice. -/
theorem loadsOnce (h : Compiled g inputs outputs tape) (seed : Grid V) :
    LoadsOnce (placesOf (countsOf inputs)) ⟨seed, .start 0 tape.workSize (countsOf inputs)⟩
      tape.instrs := by
  refine ⟨h.loads.1, fun q hq => ?_⟩
  obtain ⟨p, hp, rfl⟩ := h.loads.2 q hq
  have hlt := nonzero_lt_countsOf hp
  refine ⟨mem_placesOf hlt, ?_, Grid.read_fill ..⟩
  exact hlt.trans_eq (Grid.width_fill (0 : V) (countsOf inputs) p.index).symm

/-- No place of the outputs is stored twice. -/
theorem storesOnce (h : Compiled g inputs outputs tape) :
    StoresOnce (placesOf (countsOf outputs))
      (.start (0 : DualNumber V) tape.workSize (countsOf outputs)) tape.instrs := by
  rw [StoresOnce, h.stores]
  refine ⟨nodup_places outputs, fun q hq => ?_⟩
  obtain ⟨p, hp, rfl⟩ := List.mem_map.mp hq
  have hlt := nonzero_lt_countsOf hp
  have hzero : (Run.start (0 : DualNumber V) tape.workSize (countsOf outputs)).outputs.read 0
      p.index p.nonzero = 0 := Grid.read_fill ..
  refine ⟨mem_placesOf hlt, ?_, by rw [hzero]; rfl⟩
  exact hlt.trans_eq (Grid.width_fill (0 : DualNumber V) (countsOf outputs) p.index).symm

end ScalarTape.Compiled

namespace Routine

variable {V : Type} [CommRing V] {I : Interpretation V} {r s : Routine} {d : FunctionObject}

theorem IsCompiled.loadsOnce (hr : r.IsCompiled) (seed : Grid V) :
    ScalarTape.LoadsOnce (ScalarTape.placesOf r.inSizes)
      ⟨seed, .start 0 r.tape.workSize r.inSizes⟩ r.tape.instrs := by
  obtain ⟨origin, inputs, outputs, hcomes⟩ := hr
  rw [hcomes.inSizes]
  exact (ScalarTape.compiled_of_compile hcomes.compile).loadsOnce seed

theorem IsCompiled.storesOnce (hr : r.IsCompiled) :
    ScalarTape.StoresOnce (ScalarTape.placesOf r.outSizes)
      (.start (0 : DualNumber V) r.tape.workSize r.outSizes) r.tape.instrs := by
  obtain ⟨origin, inputs, outputs, hcomes⟩ := hr
  rw [hcomes.outSizes]
  exact (ScalarTape.compiled_of_compile hcomes.compile).storesOnce

/-- From values of the inputs and weights of the outputs, derivatives of the weighted outputs: paired
with a direction `dx` of the inputs they give the weighted derivatives of the outputs. -/
def Pulls (I : Interpretation V) (r : Routine) (dx arguments results : Bundle V) : Prop :=
  ∀ x w : Bundle V, x.map List.length = r.inSizes → w.map List.length = r.outSizes →
    arguments = x ++ w → Bundle.pairing r.inSizes results (Bundle.dual x dx)
      = Bundle.pairing r.outSizes w
        (Id.run (r.tape.replay I.dualAlgebra (Bundle.dual x dx) [] r.outSizes))

/-- The expressions of the reverse derivative: outputs are read as derivatives of the weighted
outputs. -/
theorem yields_reverseExpressions (r : Routine) {dx : Bundle V}
    (hdx : dx.map List.length = r.inSizes) (ρ : ScalarId → V) {g : ScalarGraph} :
    Yields (do
      let xs ← symbolsLike "x" r.inPatterns
      let weights ← symbolsLike "a" r.outPatterns
      let (_, adjoints) ← r.tape.reverse scalarAlgebra (xs.map SparseMatrix.values) []
        [weights.map SparseMatrix.values] r.inSizes r.outSizes
      return (xs ++ weights, ScalarFunction.wrap r.inPatterns (adjoints.headD []) .zero)) g
      fun ms h => Offers g ms h ∧ (r.IsCompiled → I.Exact h →
        r.Pulls I dx (ms.1.map fun m => m.values.map ρ)
          (ms.2.map fun m => m.values.map (h.value I ρ))) := by
  refine (yields_symbolsLike "x" r.inPatterns).bind fun xs h hgh hxs => ?_
  refine (yields_symbolsLike "a" r.outPatterns).bind fun ws k hhk hws => ?_
  have hx := MatrixFunction.map_length_values xs ρ
  rw [hxs.2] at hx
  have hinputs : Bundle.Related (fun e (d : DualNumber V) => k.Reads I ρ e d.fst)
      (xs.map SparseMatrix.values) (Bundle.dual (xs.map fun m => m.values.map ρ) dx) :=
    Bundle.related_dual_fst (hx.trans hdx.symm) (related_fresh hxs.1 hhk)
  have hweights : List.Forall₂ (List.Forall₂ fun e v => k.Reads I ρ e v)
      (ws.map SparseMatrix.values) (ws.map fun m => m.values.map ρ) :=
    related_fresh hws.1 (.refl k)
  refine ((ScalarTape.yields_reverse (I := I) (ρ := ρ) r.tape r.inSizes r.outSizes hinputs .nil
    (.cons (.of_forall₂ hweights) .nil)).unnamed (ScalarTape.assembled_reverse ..)).bind
      fun res l hkl hres => yields_pure ?_
  obtain ⟨hres, hfounded, hsymbols⟩ := hres
  refine ⟨offers_append hgh hxs.1 hhk hws.1 hkl hsymbols ?_, fun hr hexact x w hxlen _ heq => ?_⟩
  · refine ScalarFunction.has_of_mem_wrap ⟨_, hfounded.zero⟩ ?_
    obtain ⟨_, adjoints⟩ := res
    cases hres with
    | cons hadjoint _ => exact hadjoint.forall_left fun _ _ he => he.has
  rw [List.map_append] at heq
  obtain ⟨rfl, rfl⟩ := Bundle.eq_of_append_eq (hx.trans hxlen.symm) heq
  obtain ⟨_, adjoints⟩ := res
  cases hres with
  | cons hadjoint hnone =>
    cases hnone
    have hnofree : ∀ k, (([] : List (DualNumber V)).getD k 0).snd = 0 := fun _ => rfl
    have hweigh := ScalarTape.weigh_pullBack I.differentiates r.tape
      (Bundle.dual (xs.map fun m => m.values.map ρ) dx) (.ofBundle (ws.map fun m => m.values.map ρ))
      hnofree (hr.loadsOnce _) hr.storesOnce
    have hwrap := ScalarFunction.forall₂_wrap r.inPatterns hadjoint (by
      refine Grid.map_length_toBundle ?_ fun i => ?_
      · rw [ScalarTape.size_outputs_pullBack]
        simp [ScalarTape.Run.start, Grid.fill, inSizes]
      · rw [ScalarTape.width_pullBack]
        exact Grid.width_fill ..) .zero
    have hrows := map_map_of_forall₂ (l.value I ρ) (fun v => v) hwrap fun e v he => he.2 hexact
    rw [List.map_map, List.map_id_fun', List.map_id] at hrows
    rw [ScalarTape.weigh_placesOf, ScalarTape.weigh_placesOf, Grid.toBundle_ofBundle,
      Grid.toBundle_ofBundle, ← ScalarTape.replay_eq, ← hrows, ← I.dualAlgebra_eq] at hweigh
    exact hweigh

/-- **Reverse derivatives** of a routine compute the derivatives of the weighted outputs: paired with
the direction in which the inputs move they give the weighted derivatives of the outputs. -/
theorem pairing_reverseDerivative (hr : r.IsCompiled) (hd : r.reverseDerivative = .ok d)
    (hs : d.routine = .ok s) (hexact : d.FoldsExact I.algebra) {x : Bundle (DualNumber V)}
    (hx : x.map List.length = r.inSizes) {w : Bundle V} (hw : w.map List.length = r.outSizes) :
    Bundle.pairing r.inSizes
        (Id.run (s.tape.replay I.algebra (x.map (·.map TrivSqZeroExt.fst) ++ w) [] s.outSizes)) x
      = Bundle.pairing r.outSizes w (Id.run (r.tape.replay I.dualAlgebra x [] r.outSizes)) := by
  have hlength (f : DualNumber V → V) : (x.map (·.map f)).map List.length = r.inSizes :=
    (Bundle.map_length_map f x).trans hx
  have hvalues : (x.map (·.map TrivSqZeroExt.fst) ++ w).map List.length = s.inSizes := by
    rw [List.map_append, hlength, hw, inSizes, inSizes, outSizes, (patterns_reverseDerivative hd hs).1,
      List.map_append]
  have hpulls : r.Pulls I (x.map (·.map TrivSqZeroExt.snd)) _ _ :=
    related_standalone (P := r.Pulls I _)
      (fun ρ => (yields_reverseExpressions r (hlength _) ρ).imp fun _ _ _ _ hms => hms.2 hr)
      (function_reverseDerivative hd) rfl hs hexact hvalues
  have hrelated := hpulls _ _ (hlength _) hw rfl
  rwa [Bundle.dual_map] at hrelated

/-! ### Derivative functions are always made -/

theorem routine_eq_ok {tape : ScalarTape} (htape : d.function.tape = .ok tape)
    (hclosed : tape.freeSymbols = []) : ∃ s, d.routine = .ok s := by
  rw [FunctionObject.routine, htape]
  exact ⟨_, dif_pos hclosed⟩

/-- **The forward derivative function can be made**, and embedded. -/
theorem exists_forwardDerivative (r : Routine) :
    ∃ d s, r.forwardDerivative = .ok d ∧ d.routine = .ok s := by
  obtain ⟨f, tape, hf, htape, hclosed⟩ :
      ∃ f tape, r.forwardFunction = .ok f ∧ f.tape = .ok tape ∧ tape.freeSymbols = [] :=
    exists_standalone ((yields_forwardExpressions (I := .trivial) r fun _ => ()).imp
      fun _ _ _ _ hms => hms.1)
  obtain ⟨s, hs⟩ := routine_eq_ok (d := .new r.forwardId f) htape hclosed
  exact ⟨.new r.forwardId f, s, congrArg (Except.map _) hf, hs⟩

/-- **The reverse derivative function can be made**, and embedded. -/
theorem exists_reverseDerivative (r : Routine) :
    ∃ d s, r.reverseDerivative = .ok d ∧ d.routine = .ok s := by
  have hdx := Bundle.map_length_replicate () r.inSizes
  obtain ⟨f, tape, hf, htape, hclosed⟩ :
      ∃ f tape, r.reverseFunction = .ok f ∧ f.tape = .ok tape ∧ tape.freeSymbols = [] :=
    exists_standalone ((yields_reverseExpressions (I := .trivial) r hdx fun _ => ()).imp
      fun _ _ _ _ hms => hms.1)
  obtain ⟨s, hs⟩ := routine_eq_ok (d := .new r.reverseId f) htape hclosed
  exact ⟨.new r.reverseId f, s, congrArg (Except.map _) hf, hs⟩

end Routine

end Fluxion
