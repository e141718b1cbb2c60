import Fluxion.Proofs.Expansion.Refusals
import Fluxion.Proofs.Jacobian.Hessian
import Fluxion.Proofs.Jacobian.MatrixSeeds
import Fluxion.Proofs.Pattern.Sets

/-!
# Expansion makes no dependencies

The dependencies of a matrix function are found by a run of its tape over sets of nonzeros, those of
the scalar function that it expands into by a run of another tape, made of what the builders have
left of the expressions. The two runs go different ways: folded literals and operations that are
left out drop operands, and nodes are shared.

The runs are compared through the symbols that expressions are made of. If the set that the matrix
tape computes beside an expression does not have a nonzero, no symbol below the expression stands
for this nonzero. Builders keep this, whatever they leave out, since what stands for an operation is
made of its operands. So nothing that the scalar tape finds is missing from the set. The reverse is
not true: an expression that is taken from itself leaves nothing to depend on.

## Main definitions

* `ScalarGraph.Misses` — an expression is made of no symbol that has a component
* `MatrixFunction.Covers` — dependencies of a scalar function are among those of a matrix function

## Main results

* `ScalarGraph.simulates_misses` — builders drop dependencies, but make none
* `MatrixFunction.covers_of_expandOn` — expansion on any symbols
* `MatrixHistory.covers_expansions` — **expansion makes no dependencies**, after every history
-/

namespace Fluxion

open ScalarBuilder

variable {g h : ScalarGraph} {sets : ScalarId → Nat} {j : Nat}

/-! ### Sets beside expressions -/

namespace ScalarGraph

/-- What is made of symbols without a component does not have it. -/
theorem Within.testBit_eq_false {e : ScalarId}
    (he : g.Within (fun x => (sets x).testBit j = false) e) :
    (g.evaluate dependencyAlgebra sets e).testBit j = false := by
  induction he with
  | symbol hn hs =>
    rw [evaluate_of_node? hn]
    exact hs
  | literal hn =>
    rw [evaluate_of_node? hn]
    exact Nat.zero_testBit j
  | unary hn _ ih =>
    rw [evaluate_of_node? hn]
    exact ih
  | binary hn _ _ iha ihb =>
    rw [evaluate_of_node? hn]
    show (_ ||| _ : Nat).testBit j = false
    rw [Nat.testBit_or, iha, ihb, Bool.or_false]

/-- The graph has the expression, and if a set does not have component `j`, neither has any symbol
that the expression is made of. -/
def Misses (g : ScalarGraph) (sets : ScalarId → Nat) (j : Nat) (e : ScalarId) (s : Nat) : Prop :=
  g.Has e ∧ (s.testBit j = false → g.Within (fun x => (sets x).testBit j = false) e)

theorem misses_of_isSymbol {e : ScalarId} (he : g.isSymbol e = true) :
    g.Misses sets j e (sets e) :=
  ⟨has_of_isSymbol he, fun hs => .of_isSymbol he hs⟩

theorem Founded.misses_zero (hg : g.Founded) : g.Misses sets j .zero 0 :=
  ⟨⟨_, hg.zero⟩, fun _ => .literal hg.zero⟩

/-- A request whose result is made of what the graph has, and of symbols without the component if
the set does not have it. -/
theorem yields_misses {x : ScalarBuilder ScalarId} {s : Nat}
    (hhas : Yields x g fun e h => h.Within (fun _ => True) e)
    (hwithin : s.testBit j = false →
      Yields x g fun e h => h.Within (fun y => (sets y).testBit j = false) e) :
    Yields x g fun e h => h.Misses sets j e s := by
  cases hs : s.testBit j with
  | false => exact (hwithin hs).imp fun e h _ _ he => ⟨he.has, fun _ => he⟩
  | true =>
    refine hhas.imp fun e h _ _ he => ⟨he.has, fun hfalse => ?_⟩
    exact absurd (hs.symm.trans hfalse) (by decide)

/-- **Builders drop dependencies, but make none.** -/
theorem simulates_misses (sets : ScalarId → Nat) (j : Nat) :
    Simulates (fun g e s => g.Misses sets j e s) dependencyAlgebra where
  grow hgrow he := ⟨he.1.grow hgrow, fun hs => (he.2 hs).grow hgrow⟩
  constant g c _ := by
    obtain ⟨hgrow, hn⟩ := g.literal_spec c
    exact ⟨_, _, rfl, hgrow, ⟨_, hn⟩, fun _ => .literal hn⟩
  unary := by
    rintro g a s op ⟨ha, hwithin⟩
    exact yields_misses (yields_unary_within op ha.within) fun hs =>
      yields_unary_within op (hwithin hs)
  binary := by
    rintro g a b s t op ⟨ha, hleft⟩ ⟨hb, hright⟩
    refine yields_misses (yields_binary_within op ha.within hb.within) fun hst => ?_
    have hst : (s ||| t : Nat).testBit j = false := hst
    rw [Nat.testBit_or, Bool.or_eq_false_iff] at hst
    exact yields_binary_within op (hleft hst.1) (hright hst.2)

end ScalarGraph

/-! ### Symbols of inputs -/

/-- Symbols of inputs start with the sets of their nonzeros. -/
theorem ScalarTape.map_startOf {inputs : List (SparseMatrix ScalarId)}
    (hdistinct : ((places inputs).map fun p => p.e.index).Nodup) (i : Nat) :
    (inputs.map fun m => m.values.map (startOf inputs i))
      = dependencySeeds (countsOf inputs) i := by
  refine List.ext_getElem? fun i' => ?_
  rw [dependencySeeds, countsOf, List.getElem?_map, List.getElem?_map, List.getElem?_zipIdx,
    List.getElem?_map]
  cases hm : inputs[i']? with
  | none => rfl
  | some m =>
    rw [Option.map_some, Option.map_some, Option.map_some, Option.map_some, Option.some.injEq]
    refine List.ext_getElem (by simp [m.length_values]) fun k hk _ => ?_
    rw [List.length_map] at hk
    have hp : (⟨m.values[k], i', k⟩ : Place) ∈ places inputs :=
      mem_places.mpr ⟨m, hm, List.getElem?_eq_getElem hk⟩
    rw [List.getElem_map, startOf_place hdistinct hp, List.getElem_map, List.getElem_range,
      Nat.zero_add]

namespace MatrixFunction

variable {f : MatrixFunction} {mg : MatrixGraph} {tape : MatrixTape}
  {inputs : List (SparseMatrix ScalarId)} {k : ScalarFunction}

/-- The dependencies of a scalar function are among those of a matrix function: for each input and
output there are two patterns of one shape, one of them inside the other, and where there is no such
input or output both refuse for the same reason. -/
def Covers (f : MatrixFunction) (k : ScalarFunction) : Prop :=
  ∀ i o, (i < f.inCount ∧ o < f.outCount ∧ ∃ p q, f.dependencyPattern i o = .ok p ∧
      k.dependencyPattern i o = .ok q ∧ q.shape = p.shape ∧ q.isSubset p = true) ∨
    ((f.inCount ≤ i ∨ f.outCount ≤ o) ∧ ∃ e, f.dependencyPattern i o = .error e ∧
      k.dependencyPattern i o = .error e)

/-- Indices that are out of range are refused alike by functions with the same patterns. -/
theorem dependencyPattern_eq_error (hin : k.inCount = f.inCount) (hout : k.outCount = f.outCount)
    {i o : Nat} (hrange : f.inCount ≤ i ∨ f.outCount ≤ o) :
    ∃ e, f.dependencyPattern i o = .error e ∧ k.dependencyPattern i o = .error e := by
  rw [dependencyPattern, ScalarFunction.dependencyPattern, hin, hout]
  by_cases hi : i < f.inCount
  · have ho : ¬ o < f.outCount := by omega
    rw [checkInput, if_pos hi, checkOutput, if_neg ho]
    exact ⟨_, rfl, rfl⟩
  · rw [checkInput, if_neg hi]
    exact ⟨_, rfl, rfl⟩

/-- A run over symbols misses what the run over their sets misses. -/
theorem yields_replay_misses (tape : MatrixTape) (count : Nat) (sets : ScalarId → Nat) (j : Nat)
    (hinputs : ∀ e ∈ ScalarFunction.handlesOf inputs, g.isSymbol e = true) :
    Yields (tape.replay scalarAlgebra (inputs.map SparseMatrix.values) count) g fun rows h =>
      List.Forall₂ (List.Forall₂ (h.Misses sets j)) rows
        (Id.run (tape.replay dependencyAlgebra (inputs.map fun m => m.values.map sets) count)) := by
  refine MatrixTape.yields_replay (ScalarGraph.simulates_misses sets j) tape
    (forall₂_map_same inputs fun m hm => ?_) count
  have hrow : List.Forall₂ (g.Misses sets j) (m.values.map id) (m.values.map sets) :=
    forall₂_map_same m.values fun e he =>
      ScalarGraph.misses_of_isSymbol (hinputs e (List.mem_flatMap.mpr ⟨m, hm, he⟩))
  rwa [List.map_id] at hrow

/-- What an expansion that succeeds has made: a function whose outputs are the rows of a run over
symbols, with a length for each pattern. -/
theorem exists_makes_of_expandOn (hf : f.Ready mg) (hmg : mg.WellTyped) (hg : g.Founded)
    (hpatterns : inputs.map SparseMatrix.pattern = f.inPatterns)
    (hok : f.expandOn inputs g = .ok k h) :
    ∃ tape rows t, f.tape? = some tape ∧
      tape.replay scalarAlgebra (inputs.map SparseMatrix.values) f.outCount g = .ok rows h ∧
      rows.map List.length = f.outPatterns.map Pattern.nnz ∧
      ScalarFunction.Makes h inputs (ScalarFunction.wrap f.outPatterns rows .zero) t k := by
  obtain ⟨tape, rows, htape, -, hrun, hmake⟩ := exists_of_expandOn hok
  obtain ⟨hsymbols, hnodup⟩ := symbols_of_expandOn hok
  obtain ⟨hgrow, hlengths, -⟩ := (yields_replay_values tape f.outCount hsymbols).of_run hg hrun
  obtain ⟨-, hhas⟩ := (yields_replay_has hf hmg htape
    (fun e he => ScalarGraph.has_of_isSymbol (hsymbols e he)) hpatterns).of_run hg hrun
  obtain ⟨k', t, hmake', hmakes⟩ := ScalarFunction.make_eq_ok f.options
    (fun e he => ScalarGraph.isSymbol_grow hgrow (hsymbols e he)) hnodup hhas
  obtain rfl : k = k' := Except.ok.inj (hmake.symm.trans hmake')
  refine ⟨tape, rows, t, htape, hrun, hlengths.trans ?_, hmakes⟩
  exact hf.length_replay hmg htape dependencyAlgebra (by rw [map_length_values, hpatterns]; rfl)

/-- What the scalar tape finds for a nonzero is in the set that the matrix tape finds. -/
theorem testBit_dependencies {rows : Bundle ScalarId} {t : ScalarTape} {i o r j : Nat}
    (hg : g.Founded) (hsymbols : ∀ e ∈ ScalarFunction.handlesOf inputs, g.isSymbol e = true)
    (hpatterns : inputs.map SparseMatrix.pattern = f.inPatterns)
    (hrun : tape.replay scalarAlgebra (inputs.map SparseMatrix.values) f.outCount g = .ok rows h)
    (hlengths : rows.map List.length = f.outPatterns.map Pattern.nnz)
    (hmakes : ScalarFunction.Makes h inputs (ScalarFunction.wrap f.outPatterns rows .zero) t k)
    (hr : r < (ScalarTape.countsOf (ScalarFunction.wrap f.outPatterns rows .zero)).getD o 0)
    (hbit : ((t.dependencies (ScalarTape.countsOf inputs) (ScalarTape.countsOf
      (ScalarFunction.wrap f.outPatterns rows .zero)) i o).getD r 0).testBit j = true) :
    ((tape.dependencies f.inSizes f.outCount i o).getD r 0).testBit j = true := by
  have hresides := hmakes.ready.resides
  obtain ⟨hgrow, hrows⟩ := (yields_replay_misses tape f.outCount (ScalarTape.startOf inputs i) j
    hsymbols).of_run hg hrun
  rw [ScalarTape.map_startOf hresides.distinct, ← ScalarTape.map_nnz_pattern, hpatterns] at hrows
  -- the handle in this place of the outputs, and the set beside it
  have hplace : (⟨valueAt (ScalarFunction.wrap f.outPatterns rows .zero) o r, o, r⟩ :
      ScalarTape.Place) ∈ ScalarTape.places (ScalarFunction.wrap f.outPatterns rows .zero) :=
    mem_places_valueAt.mpr ⟨hr, rfl⟩
  have hvalue : valueAt (ScalarFunction.wrap f.outPatterns rows .zero) o r
      = (rows.getD o []).getD r .zero := by
    rw [valueAt, ScalarFunction.values_wrap hlengths]
  have hmisses := forall₂_getD (forall₂_getD hrows .nil o) (hg.grow hgrow).misses_zero r
  by_contra hfalse
  have hwithin := (hmisses.2 (Bool.not_eq_true _ ▸ hfalse)).testBit_eq_false
  rw [hresides.getD_dependencies hplace i, hvalue, hwithin] at hbit
  contradiction

/-- **Expansion on any symbols** makes no dependencies. -/
theorem covers_of_expandOn (hf : f.Ready mg) (hmg : mg.WellTyped) (hg : g.Founded)
    (hpatterns : inputs.map SparseMatrix.pattern = f.inPatterns)
    (hok : f.expandOn inputs g = .ok k h) : f.Covers k := by
  obtain ⟨tape, rows, t, htape, hrun, hlengths, hmakes⟩ :=
    exists_makes_of_expandOn hf hmg hg hpatterns hok
  have hr := hmakes.ready
  have hinPatterns : k.inPatterns = f.inPatterns := hmakes.inPatterns.trans hpatterns
  have houtPatterns : k.outPatterns = f.outPatterns :=
    hmakes.outPatterns.trans (ScalarFunction.patterns_wrap ..)
  have hin : k.inCount = f.inCount := by
    rw [ScalarFunction.inCount, hinPatterns, hf.inCount_eq]
  have hout : k.outCount = f.outCount := by
    rw [ScalarFunction.outCount, houtPatterns, hf.outCount_eq]
  intro i o
  by_cases hrange : i < f.inCount ∧ o < f.outCount
  · obtain ⟨hi, ho⟩ := hrange
    obtain ⟨p, hp⟩ := exists_dependencyPattern htape hi ho
    obtain ⟨q, hq, hqrows, hqcols, -⟩ :=
      ScalarFunction.dependencyPattern_eq hr (hin ▸ hi) (hout ▸ ho)
    obtain ⟨-, -, hprows, hpcols⟩ := shape_dependencyPattern hf hmg hp
    have hrows : q.nrows = p.nrows := by
      rw [hqrows, hprows, ScalarFunction.outPattern, houtPatterns]
      rfl
    have hcols : q.ncols = p.ncols := by
      rw [hqcols, hpcols, ScalarFunction.inPattern, hinPatterns]
      rfl
    have hshape : q.shape = p.shape := by rw [Pattern.shape, Pattern.shape, hrows, hcols]
    refine .inl ⟨hi, ho, p, q, hp, hq, hshape, Pattern.isSubset_iff.mpr ⟨hshape, ?_⟩⟩
    rintro ⟨r, j⟩ hmem
    rw [Pattern.mem_support] at hmem ⊢
    have hrow := hrows ▸ Pattern.row_lt_of_mem_positions hmem
    have hcolumn := hcols ▸ Pattern.column_lt_of_mem_positions hmem
    obtain rfl := Except.ok.inj (hq.symm.trans
      (ScalarFunction.dependencyPattern_eq_ok hr (hin ▸ hi) (hout ▸ ho)))
    obtain rfl := dependencyPattern_eq_ok htape hp
    obtain ⟨hlt, -, hbit⟩ := ScalarTape.mem_positions_dependencyPattern.mp hmem
    rw [hr.resides.length_dependencies] at hlt
    exact ScalarTape.mem_positions_dependencyPattern.mpr ⟨hrow, hpcols ▸ hcolumn,
      testBit_dependencies hg (symbols_of_expandOn hok).1 hpatterns hrun hlengths hmakes hlt hbit⟩
  · exact .inr ⟨by omega, dependencyPattern_eq_error hin hout (by omega)⟩

/-- New symbols for the inputs make no dependencies. -/
theorem covers_of_expand (hf : f.Ready mg) (hmg : mg.WellTyped) (hg : g.Founded)
    (hok : f.expand g = .ok k h) : f.Covers k := by
  obtain ⟨inputs, g₁, hinputs, hon⟩ := ok_of_bind hok
  obtain ⟨hgrow, -, hpatterns⟩ := (yields_newInputs hf).of_run hg hinputs
  exact covers_of_expandOn hf hmg (hg.grow hgrow) hpatterns hon

/-- Given handles for the inputs make no dependencies. -/
theorem covers_of_expandWith (hf : f.Ready mg) (hmg : mg.WellTyped) (hg : g.Founded)
    {es : List ScalarId} (hok : f.expandWith es g = .ok k h) : f.Covers k := by
  have hcount := (expandable_of_ok hok).count
  rw [expandWith_of_count hcount] at hok
  exact covers_of_expandOn hf hmg hg (map_pattern_distribute ..) hok

end MatrixFunction

/-! ### After every history -/

namespace MatrixHistory

variable {gs : GraphId → Option MatrixGraph} {fs : List MatrixFunction} {f : MatrixFunction}
  {tape : MatrixTape} {scalars : GraphId → Option ScalarGraph} {functions : List ScalarFunction}
  {i : GraphId}

/-- **Expansion makes no dependencies.** A function without free symbols expands in every scalar
graph, on new symbols and on different given ones. However it was expanded, the dependencies of the
scalar function are, for each input and output, a pattern of the same shape inside those of the
function. -/
theorem covers_expansions (hist : MatrixHistory gs fs) (hf : f ∈ fs) (htape : f.tape? = some tape)
    (hclosed : tape.freeSymbols = []) (hscalars : ScalarHistory scalars functions)
    (hg : scalars i = some g) :
    (∃ k h, f.expand g = .ok k h ∧ f.Covers k) ∧
      (∀ symbols : List ScalarId, (∀ e ∈ symbols, g.isSymbol e = true) → symbols.Nodup →
        symbols.length = f.inSizes.foldr (· + ·) 0 → ∃ k h, f.expandWith symbols g = .ok k h) ∧
      ∀ (es : List ScalarId) (k : ScalarFunction) (h : ScalarGraph),
        f.expandWith es g = .ok k h → f.Covers k := by
  obtain ⟨mg, hmg, -, hready⟩ := hist.invariant.2.2 f hf
  have htyped := hist.invariant.2.1 _ mg hmg
  have hfounded := hscalars.founded hg
  refine ⟨?_, fun symbols hsymbols hnodup hcount => ?_, fun es k h hok =>
    MatrixFunction.covers_of_expandWith hready htyped hfounded hok⟩
  · obtain ⟨k, h, hok, -⟩ := MatrixFunction.yields_expand hready htyped htape hclosed hfounded
    exact ⟨k, h, hok, MatrixFunction.covers_of_expand hready htyped hfounded hok⟩
  · obtain ⟨k, h, hok, -⟩ := MatrixFunction.yields_expandWith hready htyped htape hclosed hsymbols
      hnodup hcount hfounded
    exact ⟨k, h, hok⟩

end MatrixHistory

/-! ### The embedded product, expanded -/

namespace EmbeddedProduct

/-- The product depends on both factors, and so does the product that is written out. -/
theorem covers_expansions_symbols :
    (functionWith (some tape)).tape? = some tape ∧ tape.freeSymbols = [] ∧
    (∃ k h, (functionWith (some tape)).expand Product.graph = .ok k h ∧
      (functionWith (some tape)).Covers k) ∧
    ∃ k h, (functionWith (some tape)).expandWith [⟨3⟩, ⟨4⟩] Product.graph = .ok k h ∧
      (functionWith (some tape)).Covers k := by
  obtain ⟨hnew, hgiven, hcovers⟩ := functions.history.covers_expansions
    (f := functionWith (some tape)) (List.mem_cons_self ..) rfl rfl Product.history
    (show Product.graphs (.numbered 0) = some Product.graph from Function.update_self ..)
  obtain ⟨k, h, hok⟩ := hgiven [⟨3⟩, ⟨4⟩] (by decide) (by decide) (by decide)
  exact ⟨rfl, rfl, hnew, k, h, hok, hcovers _ k h hok⟩

end EmbeddedProduct

end Fluxion
