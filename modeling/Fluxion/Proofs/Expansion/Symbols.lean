import Fluxion.Function.Expansion
import Fluxion.Proofs.Expansion.Simulation
import Fluxion.Proofs.Matrix.Routines
import Fluxion.Proofs.Scalar.Compile

/-!
# Functions on new and on given symbols

A scalar function can be made of different symbols and of any expressions that the graph has. Symbols
that have just been added are different from each other and from all others; symbols that are given
are laid out on the patterns of the inputs one after another.

## Main definitions

* `ScalarGraph.Fresh` — different symbols that were added since the graph had a certain size
* `ScalarFunction.Makes` — the function that is made of inputs and outputs

## Main results

* `ScalarBuilder.yields_symbolMatrix` — matrices of new symbols
* `MatrixFunction.flatMap_values_distribute` — given symbols, laid out
* `ScalarFunction.make_eq_ok` — **functions can be made** of different symbols
-/

namespace Fluxion

open ScalarBuilder ScalarFunction

variable {g h : ScalarGraph}

/-! ### New symbols -/

namespace ScalarGraph

/-- Different symbols that were added when the graph had `size` nodes or more, and all of these. -/
structure Fresh (size : Nat) (es : List ScalarId) (g : ScalarGraph) : Prop where
  isSymbol : ∀ e ∈ es, g.isSymbol e = true
  above : ∀ e ∈ es, size ≤ e.index
  nodup : es.Nodup
  complete : ∀ e, g.isSymbol e = true → size ≤ e.index → e ∈ es

theorem isSymbol_grow {e : ScalarId} (hgrow : g.Grows h) (he : g.isSymbol e = true) :
    h.isSymbol e = true := by
  obtain ⟨n, hn⟩ := has_of_isSymbol he
  rw [isSymbol, hn] at he
  rwa [isSymbol, hgrow.node? hn]

/-- What is a symbol now, and was there before, was a symbol. -/
theorem isSymbol_of_grows {e : ScalarId} (hgrow : g.Grows h) (he : e.index < g.size)
    (hsymbol : h.isSymbol e = true) : g.isSymbol e = true := by
  obtain ⟨n, hn⟩ := has_of_index_lt he
  rw [isSymbol, hgrow.node? hn] at hsymbol
  rwa [isSymbol, hn]

/-- Different symbols stay what they are as long as no others are added. -/
theorem Fresh.grow {size : Nat} {es : List ScalarId} (hes : Fresh size es g) (hgrow : g.Grows h)
    (hsymbols : ∀ e, h.isSymbol e = true → g.isSymbol e = true) : Fresh size es h where
  isSymbol e he := isSymbol_grow hgrow (hes.isSymbol e he)
  above := hes.above
  nodup := hes.nodup
  complete e he := hes.complete e (hsymbols e he)

theorem Fresh.append {size : Nat} {es ds : List ScalarId} (hes : Fresh size es g)
    (hgrow : g.Grows h) (hsize : size ≤ g.size) (hds : Fresh g.size ds h) :
    Fresh size (es ++ ds) h where
  isSymbol := List.forall_mem_append.mpr
    ⟨fun e he => isSymbol_grow hgrow (hes.isSymbol e he), hds.isSymbol⟩
  above := List.forall_mem_append.mpr
    ⟨hes.above, fun e he => Nat.le_trans hsize (hds.above e he)⟩
  nodup := by
    refine List.nodup_append.mpr ⟨hes.nodup, hds.nodup, ?_⟩
    rintro e he d hd rfl
    have hlt := (has_of_isSymbol (hes.isSymbol e he)).index_lt
    exact absurd (hds.above e hd) (by omega)
  complete e he hge := by
    rw [List.mem_append]
    by_cases hlt : e.index < g.size
    · exact .inl (hes.complete e (isSymbol_of_grows hgrow hlt he) hge)
    · exact .inr (hds.complete e he (Nat.le_of_not_lt hlt))

end ScalarGraph

namespace ScalarBuilder

theorem yields_symbol (name : String) :
    Yields (symbol name) g fun e h => h.Fresh g.size [e] := by
  intro _
  refine ⟨(g.symbol name).1, (g.symbol name).2, rfl, g.grows_symbol name, ?_, ?_,
    List.nodup_singleton _, fun e he hge => ?_⟩
  · rw [List.forall_mem_singleton, ScalarGraph.isSymbol]
    have hn : (g.symbol name).2.node? (g.symbol name).1 = some (.symbol g.names.size) :=
      ScalarGraph.node?_push (.symbol g.names.size) (by simp [ScalarNode.operands])
    rw [hn]
    rfl
  · exact List.forall_mem_singleton.mpr (Nat.le_refl _)
  · have hlt : e.index < g.size + 1 :=
      (ScalarGraph.has_of_isSymbol he).index_lt.trans_eq (Array.size_push _)
    exact List.mem_singleton.mpr
      (congrArg ScalarId.mk (Nat.le_antisymm (Nat.le_of_lt_succ hlt) hge))

/-- Requests for new symbols one after another make different ones. -/
theorem Yields.mapM_fresh {ι α : Type} {f : ι → ScalarBuilder α} {s : α → List ScalarId}
    {P : ι → α → Prop} (items : List ι)
    (step : ∀ i g, Yields (f i) g fun a h => h.Fresh g.size (s a) ∧ P i a) :
    Yields (items.mapM f) g fun as h =>
      h.Fresh g.size (as.flatMap s) ∧ List.Forall₂ P items as := by
  induction items generalizing g with
  | nil =>
    rw [List.mapM_nil]
    have hnone : ∀ e, g.isSymbol e = true → ¬ g.size ≤ e.index := fun e he hge =>
      absurd (ScalarGraph.has_of_isSymbol he).index_lt (Nat.not_lt_of_le hge)
    exact yields_pure ⟨⟨by simp, by simp, List.nodup_nil, fun e he hge => (hnone e he hge).elim⟩,
      .nil⟩
  | cons i rest ih =>
    rw [List.mapM_cons]
    refine (step i g).bind fun a h hgh ha => ih.bind fun as k hhk has => yields_pure ?_
    exact ⟨ha.1.append hhk hgh.size_le has.1, .cons ha.2 has.2⟩

/-- A matrix of new symbols is on its pattern. -/
theorem yields_symbolMatrix (name : String) (p : Pattern) :
    Yields (symbolMatrix name p) g fun m h => h.Fresh g.size m.values ∧ m.pattern = p := by
  refine (Yields.mapM_fresh (s := fun e => [e]) (P := fun _ _ => True) (List.range p.nnz)
    fun k g => (yields_symbol _).imp fun e h _ _ he => ⟨he, trivial⟩).bind
      fun ids h _ hids => yields_pure ⟨?_, rfl⟩
  have hlength : ids.length = p.nnz := by rw [← hids.2.length_eq, List.length_range]
  rw [SparseMatrix.values_fitted hlength]
  simpa using hids.1

end ScalarBuilder

/-! ### Given symbols -/

namespace MatrixFunction

theorem map_pattern_distribute {α : Type} (z : α) (ps : List Pattern) (values : List α) :
    (distribute z ps values).map SparseMatrix.pattern = ps := by
  induction ps generalizing values with
  | nil => rfl
  | cons p rest ih => rw [distribute, List.map_cons, ih]; rfl

/-- As many values as there are nonzeros are all used, in order. -/
theorem flatMap_values_distribute {α : Type} (z : α) {ps : List Pattern} {values : List α}
    (hlength : values.length = (ps.map Pattern.nnz).foldr (· + ·) 0) :
    (distribute z ps values).flatMap SparseMatrix.values = values := by
  induction ps generalizing values with
  | nil => exact (List.length_eq_zero_iff.mp hlength).symm
  | cons p rest ih =>
    rw [List.map_cons, List.foldr_cons] at hlength
    have hfirst : (SparseMatrix.fitted p values z).values = values.take p.nnz := by
      change values.take p.nnz ++ List.replicate (p.nnz - values.length) z = _
      rw [Nat.sub_eq_zero_of_le (by omega), List.replicate_zero, List.append_nil]
    rw [distribute, List.flatMap_cons, hfirst, ih (by rw [List.length_drop]; omega),
      List.take_append_drop]

end MatrixFunction

/-! ### Making functions -/

namespace ScalarTape

theorem map_e_places (ms : List (SparseMatrix ScalarId)) :
    (places ms).map Place.e = handlesOf ms := by
  rw [places, handlesOf, List.map_flatMap]
  have hrow : ∀ (t : SparseMatrix ScalarId × Nat), (t.1.values.zipIdx.map fun s =>
      (⟨s.1, t.2, s.2⟩ : Place)).map Place.e = t.1.values := fun t => by
    rw [List.map_map]
    exact List.zipIdx_map_fst 0 t.1.values
  have hall : ∀ (n : Nat), (ms.zipIdx n).flatMap (fun t => t.1.values)
      = ms.flatMap SparseMatrix.values := by
    intro n
    conv_rhs => rw [← List.zipIdx_map_fst n ms, List.flatMap_map]
  exact (congrArg (List.flatMap · _) (funext hrow)).trans (hall 0)

theorem checkInputs_eq_ok_of_symbols {seen : NumberSet} {ps : List Place}
    (hsymbols : ∀ p ∈ ps, g.isSymbol p.e = true ∧ seen.contains p.e.index = false)
    (hnodup : (ps.map fun p => p.e.index).Nodup) : checkInputs g seen ps = .ok () := by
  induction ps generalizing seen with
  | nil => rfl
  | cons p rest ih =>
    obtain ⟨⟨hp, hseen⟩, hrest⟩ := List.forall_mem_cons.mp hsymbols
    obtain ⟨hfirst, hnodup⟩ := List.nodup_cons.mp hnodup
    rw [ScalarGraph.isSymbol] at hp
    rw [checkInputs]
    cases hn : g.node? p.e with
    | none => simp [hn] at hp
    | some n =>
      rw [hn, Option.any_some] at hp
      dsimp only
      rw [if_neg (by simp [hp]), if_neg (by simp [hseen])]
      refine ih (fun q hq => ⟨(hrest q hq).1, ?_⟩) hnodup
      rw [NumberSet.contains_insert, (hrest q hq).2, Bool.false_or]
      exact decide_eq_false fun heq => hfirst (List.mem_map.mpr ⟨q, hq, heq⟩)

end ScalarTape

theorem ScalarGraph.unknown?_eq_none {es : List ScalarId} (hes : ∀ e ∈ es, g.Has e) :
    g.unknown? es = none := by
  refine List.find?_eq_none.mpr fun e he => ?_
  obtain ⟨n, hn⟩ := hes e he
  simp [hn]

namespace ScalarFunction

/-- The function that is made of inputs and outputs in a graph, with its tape. -/
structure Makes (g : ScalarGraph) (inputs outputs : List (SparseMatrix ScalarId))
    (tape : ScalarTape) (f : ScalarFunction) : Prop where
  inPatterns : f.inPatterns = inputs.map SparseMatrix.pattern
  outPatterns : f.outPatterns = outputs.map SparseMatrix.pattern
  owner : f.owner = ⟨g.lineage.id,
    ((handlesOf (inputs ++ outputs)).map ScalarId.index).foldl max 0⟩
  stage : f.stage = .initialized ⟨inputs, outputs, none⟩ tape
  compile : ScalarTape.compile g inputs outputs = .ok tape

/-- **Functions can be made** of different symbols and of expressions that are there. -/
theorem make_eq_ok {inputs outputs : List (SparseMatrix ScalarId)} (options : FunctionOptions)
    (hsymbols : ∀ e ∈ handlesOf inputs, g.isSymbol e = true) (hnodup : (handlesOf inputs).Nodup)
    (houtputs : ∀ e ∈ handlesOf outputs, g.Has e) :
    ∃ f tape, make g inputs outputs options = .ok f ∧ Makes g inputs outputs tape f := by
  have hhandles : g.unknown? (handlesOf (inputs ++ outputs)) = none := by
    refine ScalarGraph.unknown?_eq_none ?_
    rw [handlesOf, List.flatMap_append]
    exact List.forall_mem_append.mpr
      ⟨fun e he => ScalarGraph.has_of_isSymbol (hsymbols e he), houtputs⟩
  have hinput : ∀ p ∈ ScalarTape.places inputs,
      g.isSymbol p.e = true ∧ NumberSet.empty.contains p.e.index = false := fun p hp =>
    ⟨hsymbols p.e (ScalarTape.map_e_places inputs ▸ List.mem_map_of_mem hp),
      NumberSet.contains_empty _⟩
  have hdistinct : ((ScalarTape.places inputs).map fun p => p.e.index).Nodup := by
    have hindices := hnodup.map fun (a b : ScalarId) hab => congrArg ScalarId.mk hab
    rwa [← ScalarTape.map_e_places, List.map_map] at hindices
  have hknown : g.unknown? ((ScalarTape.places outputs).map ScalarTape.Place.e) = none := by
    rw [ScalarTape.map_e_places]
    exact ScalarGraph.unknown?_eq_none houtputs
  rw [make, declare, hhandles]
  simp only [bind, Except.bind, pure, Except.pure, init, checkGraph, livesIn,
    Lineage.sharesOwner_self, if_true]
  cases hcompile : ScalarTape.compile g inputs outputs with
  | error e =>
    rw [ScalarTape.compile, ScalarTape.checkInputs_eq_ok_of_symbols hinput hdistinct] at hcompile
    simp only [hknown] at hcompile
    contradiction
  | ok tape => exact ⟨_, tape, rfl, rfl, rfl, rfl, rfl, hcompile⟩

end ScalarFunction

end Fluxion
