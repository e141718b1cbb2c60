import Fluxion.Proofs.Expansion.Symbols
import Fluxion.Proofs.Expansion.Values
import Fluxion.Proofs.History.Embedding
import Fluxion.Proofs.Matrix.Evaluation

/-!
# Expansion keeps meaning

A matrix function without free symbols expands into a scalar function on any symbols, new or given.
The scalar function has the patterns of the matrix function and no free symbols either. Over every
algebra on a ring that obeys the laws of the builders, and in which the folds of the scalar graph are
exact, the two tapes give the same values for the same arguments.

What is shown of the expressions is a little more than that: their values are those of the matrix
tape for any values of the symbols, so derivatives of the scalar function can be found by running the
matrix tape over dual numbers.

## Main definitions

* `MatrixFunction.Unrolled` — the scalar function of a matrix function on symbols
* `MatrixFunction.ExpandsTo` — a scalar function computes what a matrix function does

## Main results

* `MatrixFunction.yields_expandOn` — **expansion succeeds** and gives the values of the matrix tape
* `MatrixHistory.expandsTo` — **expansion keeps meaning**, after every history
-/

namespace Fluxion

open ScalarBuilder

/-! ### Lengths -/

theorem ScalarFunction.values_wrap {V : Type} {z : V} {ps : List Pattern} {rows : Bundle V}
    (hrows : rows.map List.length = ps.map Pattern.nnz) :
    (wrap ps rows z).map SparseMatrix.values = rows := by
  refine List.ext_getElem? fun i => ?_
  have hlength : (rows[i]?).map List.length = (ps[i]?).map Pattern.nnz := by
    rw [← List.getElem?_map, hrows, List.getElem?_map]
  rw [wrap, List.map_map, List.getElem?_map, List.getElem?_zipIdx]
  cases hp : ps[i]? with
  | none =>
    rw [hp] at hlength
    exact (Option.map_eq_none_iff.mp hlength).symm
  | some p =>
    rw [hp] at hlength
    obtain ⟨row, hrow, hfits⟩ := Option.map_eq_some_iff.mp hlength
    rw [hrow, Option.map_some, Option.map_some, Option.some.injEq]
    simp only [Function.comp_apply, Nat.zero_add, List.getD_eq_getElem?_getD, hrow,
      Option.getD_some]
    exact SparseMatrix.values_fitted hfits

namespace MatrixFunction

variable {f : MatrixFunction} {mg : MatrixGraph} {tape : MatrixTape} {g h : ScalarGraph}
  {inputs outputs : List (SparseMatrix ScalarId)} {t : ScalarTape} {k : ScalarFunction}

/-- A run gives a value for each nonzero of the outputs. -/
theorem Ready.length_replay (hf : f.Ready mg) (hmg : mg.WellTyped) (htape : f.tape? = some tape)
    {V : Type} (A : Algebra Id V) {values : Bundle V}
    (hvalues : values.map List.length = f.inSizes) :
    (Id.run (tape.replay A values f.outCount)).map List.length
      = f.outPatterns.map Pattern.nnz := by
  rw [outCount, (hf.resides tape htape).replay_eq A values]
  exact hmg.map_length_evaluate
    (fun _ _ _ => MatrixTape.length_supply hf.inPatterns hvalues) hf.outPatterns

/-! ### Expansion on symbols -/

/-- A run over expressions that are symbols gives expressions that have the values of the run over
the values of the symbols, and no other symbols below them. -/
theorem yields_replay_values (tape : MatrixTape) (count : Nat)
    (hinputs : ∀ e ∈ ScalarFunction.handlesOf inputs, g.isSymbol e = true) :
    Yields (tape.replay scalarAlgebra (inputs.map SparseMatrix.values) count) g fun rows h =>
      rows.map List.length = (Id.run (tape.replay dependencyAlgebra
        (inputs.map fun m => m.values.map fun _ => 0) count)).map List.length ∧
      (∀ row ∈ rows, ∀ e ∈ row,
        h.Within (fun e => e ∈ ScalarFunction.handlesOf inputs) e) ∧
      ∀ (V : Type) [CommRing V] (A : Algebra Id V) (given : ScalarId → V), A.Simplifies →
        List.Forall₂ (List.Forall₂ (h.Carries A given)) rows
          (Id.run (tape.replay A (inputs.map fun m => m.values.map given) count)) := by
  intro hg
  have hmem : ∀ m ∈ inputs, ∀ e ∈ m.values, e ∈ ScalarFunction.handlesOf inputs :=
    fun m hm e he => List.mem_flatMap.mpr ⟨m, hm, he⟩
  have hrelated : ∀ {V : Type} {R : ScalarId → V → Prop} (given : ScalarId → V),
      (∀ e ∈ ScalarFunction.handlesOf inputs, R e (given e)) →
      List.Forall₂ (List.Forall₂ R) (inputs.map SparseMatrix.values)
        (inputs.map fun m => m.values.map given) := by
    intro V R given hR
    refine forall₂_map_same inputs fun m hm => ?_
    have hrow : List.Forall₂ R (m.values.map id) (m.values.map given) :=
      forall₂_map_same m.values fun e he => hR e (hmem m hm e he)
    rwa [List.map_id] at hrow
  obtain ⟨rows, h, hrun, hgrow, hwithin⟩ := MatrixTape.yields_replay
    (ScalarGraph.simulates_within (fun e => e ∈ ScalarFunction.handlesOf inputs) dependencyAlgebra)
    tape (hrelated (fun _ => 0) fun e he => .of_isSymbol (hinputs e he) he) count hg
  refine ⟨rows, h, hrun, hgrow, ?_, ?_, fun V _ A given hA => ?_⟩
  · exact map_eq_map_of_forall₂ hwithin fun _ _ _ hrow => hrow.length_eq
  · exact forall_of_forall₂ (hwithin.flip.imp fun _ _ hrow => forall_of_forall₂ hrow.flip)
  · have hcarries : ∀ e ∈ ScalarFunction.handlesOf inputs, g.Carries A given e (given e) := fun e he =>
      ⟨ScalarGraph.has_of_isSymbol (hinputs e he), fun _ =>
        ScalarGraph.evaluate_of_isSymbol (hinputs e he)⟩
    have hvalues := MatrixTape.yields_replay (ScalarGraph.simulates_carries hA given) tape
      (hrelated given hcarries) count
    exact (hvalues.of_run hg hrun).2

/-- A scalar function `k` with tape `t` that is what a matrix function is on the symbols `inputs`:
its outputs have the values of the matrix tape, whatever values the symbols have. -/
structure Unrolled (f : MatrixFunction) (tape : MatrixTape)
    (inputs outputs : List (SparseMatrix ScalarId)) (t : ScalarTape) (k : ScalarFunction)
    (h : ScalarGraph) : Prop where
  makes : ScalarFunction.Makes h inputs outputs t k
  founded : h.Founded
  symbols : ∀ e ∈ ScalarFunction.handlesOf inputs, h.isSymbol e = true
  inPatterns : inputs.map SparseMatrix.pattern = f.inPatterns
  outPatterns : outputs.map SparseMatrix.pattern = f.outPatterns
  closed : t.freeSymbols = []
  values : ∀ (V : Type) [CommRing V] (A : Algebra Id V) (given : ScalarId → V), A.Simplifies →
    A.Exact h.folds → outputs.map (fun m => m.values.map (h.evaluate A given))
      = Id.run (tape.replay A (inputs.map fun m => m.values.map given) f.outCount)

theorem map_length_values (ms : List (SparseMatrix ScalarId)) {V : Type} (given : ScalarId → V) :
    (ms.map fun m => m.values.map given).map List.length
      = (ms.map SparseMatrix.pattern).map Pattern.nnz := by
  rw [List.map_map, List.map_map]
  exact List.map_congr_left fun m _ => (List.length_map _).trans m.length_values

theorem eq_map_of_forall₂_carries {V : Type} {A : Algebra Id V} {given : ScalarId → V}
    {rows : Bundle ScalarId} {values : Bundle V} (hexact : A.Exact h.folds)
    (hrows : List.Forall₂ (List.Forall₂ (h.Carries A given)) rows values) :
    rows.map (·.map (h.evaluate A given)) = values := by
  refine List.forall₂_eq_eq_eq ▸ (List.forall₂_map_left_iff.mpr (hrows.imp fun row values hrow => ?_))
  exact List.forall₂_eq_eq_eq ▸ (List.forall₂_map_left_iff.mpr (hrow.imp fun e v he => he.2 hexact))

/-- **Expansion on symbols succeeds** and gives the values of the matrix tape. -/
theorem yields_expandOn (hf : f.Ready mg) (hmg : mg.WellTyped) (htape : f.tape? = some tape)
    (hclosed : tape.freeSymbols = [])
    (hinputs : ∀ e ∈ ScalarFunction.handlesOf inputs, g.isSymbol e = true)
    (hnodup : (ScalarFunction.handlesOf inputs).Nodup)
    (hpatterns : inputs.map SparseMatrix.pattern = f.inPatterns) :
    Yields (f.expandOn inputs) g fun k h => ∃ outputs t, f.Unrolled tape inputs outputs t k h := by
  have htapeOk : f.tape = .ok tape := by rw [MatrixFunction.tape, htape]
  refine yields_ofExcept_bind htapeOk (yields_ofExcept_bind (checkClosed_eq_ok hclosed) ?_)
  refine (yields_replay_values tape f.outCount hinputs).bind fun rows h hgh hrows => ?_
  refine yields_get_bind fun hh => ?_
  obtain ⟨hlengths, hwithin, hvalues⟩ := hrows
  have hlength : (Id.run (tape.replay dependencyAlgebra
      (inputs.map fun m => m.values.map fun _ => 0) f.outCount)).map List.length
        = f.outPatterns.map Pattern.nnz :=
    hf.length_replay hmg htape dependencyAlgebra (by rw [map_length_values, hpatterns]; rfl)
  have hwrapped := ScalarFunction.values_wrap (z := ScalarId.zero) (hlengths.trans hlength)
  have hout : ∀ e ∈ ScalarFunction.handlesOf (ScalarFunction.wrap f.outPatterns rows .zero),
      h.Within (fun e => e ∈ ScalarFunction.handlesOf inputs) e := by
    intro e he
    obtain ⟨m, hm, he⟩ := List.mem_flatMap.mp he
    exact hwithin m.values (hwrapped ▸ List.mem_map_of_mem hm) e he
  have hsymbols : ∀ e ∈ ScalarFunction.handlesOf inputs, h.isSymbol e = true := fun e he =>
    ScalarGraph.isSymbol_grow hgh (hinputs e he)
  obtain ⟨k, t, hmake, hmakes⟩ := ScalarFunction.make_eq_ok f.options hsymbols hnodup
    fun e he => (hout e he).has
  refine ⟨k, h, ?_, .refl h, ScalarFunction.wrap f.outPatterns rows .zero, t, hmakes, hh, hsymbols,
    hpatterns, ScalarFunction.patterns_wrap .., ?_, fun V _ A given hA hexact => ?_⟩
  · rw [hmake]
    rfl
  · refine (ScalarTape.compiled_of_compile hmakes.compile).freeSymbols_eq_nil fun p hp => ?_
    have hmem : p.e ∈ ScalarFunction.handlesOf (ScalarFunction.wrap f.outPatterns rows .zero) :=
      ScalarTape.map_e_places _ ▸ List.mem_map_of_mem hp
    have hsame : (fun e => e ∈ ScalarFunction.handlesOf inputs)
        = fun e => ∃ q ∈ ScalarTape.places inputs, q.e = e := by
      funext e
      rw [← ScalarTape.map_e_places, List.mem_map]
    exact hsame ▸ hout p.e hmem
  · rw [← eq_map_of_forall₂_carries hexact (hvalues V A given hA)]
    conv_rhs => rw [← hwrapped, List.map_map]
    rfl

/-! ### What expanded functions compute -/

/-- A scalar function computes what a matrix function does: it has the same patterns and no free
symbols, and over every algebra that obeys the laws of the builders and in which the folds of its graph
are exact, it gives the same values. -/
def ExpandsTo (f : MatrixFunction) (tape : MatrixTape) (k : ScalarFunction) (h : ScalarGraph) : Prop :=
  k.inPatterns = f.inPatterns ∧ k.outPatterns = f.outPatterns ∧
    ∃ t, k.stage.tape? = some t ∧ t.freeSymbols = [] ∧
      ∀ (V : Type) [CommRing V] (A : Algebra Id V), A.Simplifies → A.Exact h.folds →
        ∀ values : Bundle V, values.map List.length = f.inSizes →
          Id.run (t.replay A values [] k.outSizes) = Id.run (tape.replay A values f.outCount)

/-- Symbols that are inputs have the values of their places. -/
theorem map_reading_inputs {V : Type} {z : V} {values : Bundle V}
    (hc : ScalarTape.Compiled h inputs outputs t)
    (hvalues : values.map List.length = ScalarTape.countsOf inputs) :
    (inputs.map fun m => m.values.map (t.reading inputs z values [])) = values := by
  refine List.ext_getElem? fun i => ?_
  have hlength : (values[i]?).map List.length = (inputs[i]?).map fun m => m.pattern.nnz := by
    rw [← List.getElem?_map, hvalues, ScalarTape.countsOf, List.getElem?_map]
  rw [List.getElem?_map]
  cases hm : inputs[i]? with
  | none =>
    rw [hm] at hlength
    exact (Option.map_eq_none_iff.mp hlength).symm
  | some m =>
    rw [hm] at hlength
    obtain ⟨row, hrow, hfits⟩ := Option.map_eq_some_iff.mp hlength
    rw [hrow, Option.map_some, Option.some.injEq]
    refine List.ext_getElem (by rw [List.length_map, m.length_values, hfits]) fun j hj hj' => ?_
    rw [List.length_map] at hj
    have hp : (⟨m.values[j], i, j⟩ : ScalarTape.Place) ∈ ScalarTape.places inputs :=
      ScalarTape.mem_places.mpr ⟨m, hm, List.getElem?_eq_getElem hj⟩
    rw [List.getElem_map, ScalarTape.reading_of_mem hc.distinct hp]
    simp [List.getD_eq_getElem?_getD, hrow, List.getElem?_eq_getElem hj']

theorem Unrolled.expands (hk : f.Unrolled tape inputs outputs t k h) : f.ExpandsTo tape k h := by
  have hc := ScalarTape.compiled_of_compile hk.makes.compile
  have hin : k.inPatterns = f.inPatterns := hk.makes.inPatterns.trans hk.inPatterns
  refine ⟨hin, hk.makes.outPatterns.trans hk.outPatterns, t, by rw [hk.makes.stage]; rfl, hk.closed,
    fun V _ A hA hexact values hvalues => ?_⟩
  have houtSizes : k.outSizes = ScalarTape.countsOf outputs := by
    rw [ScalarFunction.outSizes, hk.makes.outPatterns, ScalarTape.map_nnz_pattern]
  have hinSizes : values.map List.length = ScalarTape.countsOf inputs := by
    rw [hvalues, inSizes, ← hk.inPatterns, ScalarTape.map_nnz_pattern]
  rw [houtSizes, hc.replay_eq (ScalarTape.supplies_reading hc _ values []),
    hk.values V A _ hA hexact, map_reading_inputs hc hinSizes]

/-- New symbols named after the inputs are on the patterns of the inputs. -/
theorem yields_newInputs (hf : f.Ready mg) :
    Yields ((f.inNames.zip f.inPatterns).mapM fun (name, p) => symbolMatrix name p) g
      fun inputs h => h.Fresh g.size (ScalarFunction.handlesOf inputs) ∧
        inputs.map SparseMatrix.pattern = f.inPatterns := by
  refine (Yields.mapM_fresh (s := SparseMatrix.values) (P := fun i m => m.pattern = i.2) _
    fun i g => yields_symbolMatrix i.1 i.2).imp fun inputs h _ _ hinputs => ⟨hinputs.1, ?_⟩
  have hnames : f.inNames.length = f.inPatterns.length := by
    have hcount := congrArg List.length hf.inPatterns
    rw [List.length_map, List.length_map] at hcount
    exact hf.named.trans hcount
  rw [← List.map_snd_zip (Nat.le_of_eq hnames.symm)]
  exact map_eq_map_of_forall₂ hinputs.2.flip fun _ _ _ hp => hp

/-- **Expansion on new symbols succeeds.** -/
theorem yields_expand (hf : f.Ready mg) (hmg : mg.WellTyped) (htape : f.tape? = some tape)
    (hclosed : tape.freeSymbols = []) :
    Yields (f.expand) g fun k h => ∃ inputs outputs t, f.Unrolled tape inputs outputs t k h :=
  (yields_newInputs hf).bind fun inputs _ _ hinputs =>
    (yields_expandOn hf hmg htape hclosed hinputs.1.isSymbol hinputs.1.nodup hinputs.2).imp
      fun _ _ _ _ hk => ⟨inputs, hk⟩

/-- Given symbols are laid out on the patterns of the inputs. -/
theorem yields_expandWith (hf : f.Ready mg) (hmg : mg.WellTyped) (htape : f.tape? = some tape)
    (hclosed : tape.freeSymbols = []) {symbols : List ScalarId}
    (hsymbols : ∀ e ∈ symbols, g.isSymbol e = true) (hnodup : symbols.Nodup)
    (hcount : symbols.length = f.inSizes.foldr (· + ·) 0) :
    Yields (f.expandWith symbols) g fun k h =>
      ∃ inputs outputs t, f.Unrolled tape inputs outputs t k h := by
  have hhandles : ScalarFunction.handlesOf (distribute .zero f.inPatterns symbols) = symbols :=
    flatMap_values_distribute ScalarId.zero hcount
  rw [expandWith, if_neg (not_not.mpr hcount)]
  exact (yields_expandOn hf hmg htape hclosed (by rwa [hhandles]) (by rwa [hhandles])
    (map_pattern_distribute ..)).imp fun k h _ _ hk => ⟨_, hk⟩

end MatrixFunction

/-! ### After every history -/

namespace MatrixHistory

variable {gs : GraphId → Option MatrixGraph} {fs : List MatrixFunction} {f : MatrixFunction}
  {tape : MatrixTape}

/-- **Expansion keeps meaning.** A function without free symbols expands in every scalar graph, on new
symbols and on different given ones, into a function that computes the same. -/
theorem expandsTo (hist : MatrixHistory gs fs) (hf : f ∈ fs) (htape : f.tape? = some tape)
    (hclosed : tape.freeSymbols = []) {scalars : GraphId → Option ScalarGraph}
    {functions : List ScalarFunction} (hscalars : ScalarHistory scalars functions) {i : GraphId}
    {g : ScalarGraph} (hg : scalars i = some g) :
    (∃ k h, f.expand g = .ok k h ∧ g.Grows h ∧ f.ExpandsTo tape k h) ∧
      ∀ symbols : List ScalarId, (∀ e ∈ symbols, g.isSymbol e = true) → symbols.Nodup →
        symbols.length = f.inSizes.foldr (· + ·) 0 →
        ∃ k h, f.expandWith symbols g = .ok k h ∧ g.Grows h ∧ f.ExpandsTo tape k h := by
  obtain ⟨mg, hmg, -, hready⟩ := hist.invariant.2.2 f hf
  have htyped := hist.invariant.2.1 _ mg hmg
  have hfounded := hscalars.founded hg
  constructor
  · obtain ⟨k, h, hrun, hgrow, inputs, outputs, t, hk⟩ :=
      MatrixFunction.yields_expand hready htyped htape hclosed hfounded
    exact ⟨k, h, hrun, hgrow, hk.expands⟩
  · intro symbols hsymbols hnodup hcount
    obtain ⟨k, h, hrun, hgrow, inputs, outputs, t, hk⟩ :=
      MatrixFunction.yields_expandWith hready htyped htape hclosed hsymbols hnodup hcount hfounded
    exact ⟨k, h, hrun, hgrow, hk.expands⟩

end MatrixHistory

/-! ### The embedded product, expanded -/

namespace EmbeddedProduct

/-- The product is written out on new symbols, and on the two symbols of a graph. -/
theorem expandsTo_symbols :
    (∃ k h, (functionWith (some tape)).expand Product.graph = .ok k h ∧ Product.graph.Grows h ∧
      (functionWith (some tape)).ExpandsTo tape k h) ∧
    ∃ k h, (functionWith (some tape)).expandWith [⟨3⟩, ⟨4⟩] Product.graph = .ok k h ∧
      Product.graph.Grows h ∧ (functionWith (some tape)).ExpandsTo tape k h := by
  obtain ⟨hnew, hgiven⟩ := functions.history.expandsTo (List.mem_cons_self ..) rfl rfl
    Product.history (show Product.graphs (.numbered 0) = some Product.graph from
      Function.update_self ..)
  exact ⟨hnew, hgiven [⟨3⟩, ⟨4⟩] (by decide) (by decide) (by decide)⟩

end EmbeddedProduct

end Fluxion
