import Fluxion.Proofs.Expansion.Function
import Fluxion.Proofs.History.Reference
import Fluxion.Proofs.Jacobian.Matrix

/-!
# Differentiation commutes with expansion

The Jacobian of a matrix function and the Jacobian of its expansion are made by sweeps that have nothing
in common: one over matrices in a matrix graph, one over nonzeros in a scalar graph. Both show partial
derivatives in the places of the nonzeros. The outputs of the expansion have the values of the matrix tape
over every algebra, so over dual numbers, and partial derivatives of an expression are found by computing
it over dual numbers. So the partial derivatives are the same.

## Main definitions

* `ScalarFunction.outputOf` — the matrix that an output evaluates to
* `MatrixFunction.Agrees` — a matrix function and a scalar function evaluate to the same matrix

## Main results

* `MatrixFunction.Unrolled.partials_eq` — expansion keeps partial derivatives
* `LinkedHistory.agrees_jacobian` — **differentiation commutes with expansion**
-/

namespace Fluxion

variable {V : Type} [CommRing V] {I : Interpretation V}

/-! ### Jacobian functions of scalar functions -/

namespace ScalarFunction

variable {f F : ScalarFunction} {g h : ScalarGraph} {e : Expressions} {tape : ScalarTape} {i o k j : Nat}

/-- The matrix that output `o` evaluates to, zero where nothing is stored. -/
def outputOf (f : ScalarFunction) (A : Algebra Id V) (values : Bundle V) (o r c : Nat) : V :=
  f.stage.tape?.elim 0 fun tape =>
    (f.outPattern o).placed ((Id.run (tape.replay A values [] f.outSizes)).getD o []) r c

/-- What is stored for a matrix of expressions are their values. -/
theorem outputOf_of_makes {inputs : List (SparseMatrix ScalarId)} {m : SparseMatrix ScalarId}
    (hF : Makes h inputs [m] tape F) (I : Interpretation V) (values : Bundle V) :
    F.outputOf I.algebra values 0 = h.entry I (tape.reading inputs 0 values []) m := by
  have hc := ScalarTape.compiled_of_compile hF.compile
  have hsizes : F.outSizes = ScalarTape.countsOf [m] := by
    rw [outSizes, hF.outPatterns]
    rfl
  have hpattern : F.outPattern 0 = m.pattern := by
    rw [outPattern, hF.outPatterns]
    rfl
  have hzero : I.algebra.constant 0.0 = 0 := I.literal_zero
  funext r c
  rw [outputOf, hF.stage]
  change (F.outPattern 0).placed ((Id.run (tape.replay I.algebra values [] F.outSizes)).getD 0 []) r c = _
  rw [hsizes, hc.replay_eq (ScalarTape.supplies_reading hc _ values []), hzero, hpattern,
    Pattern.placed, ScalarGraph.entry, SparseMatrix.get?]
  cases m.pattern.find? r c with
  | none => rfl
  | some k =>
    change (m.values.map _).getD k 0 = (m.values[k]?).elim 0 _
    rw [List.getD_eq_getElem?_getD, List.getElem?_map]
    cases m.values[k]? <;> rfl

/-- **Jacobian functions evaluate to partial derivatives**, where the symbols of the inputs have the values
of their places. -/
theorem exists_jacobian (hr : f.Ready g e tape) (hg : g.Founded) (hi : i < f.inCount) (ho : o < f.outCount)
    (compact : Bool) (hsize : compact = true ∨
      (f.outPattern o).numel < countLimit ∧ (f.inPattern i).numel + 1 < tableLimit) :
    ∃ F h, f.jacobian i o compact false g = .ok F h ∧ g.Grows h ∧
      ∀ {V : Type} [CommRing V] (I : Interpretation V), I.Exact h → ∀ values : Bundle V,
        values.map List.length = f.inSizes → ∃ ρ : ScalarId → V,
          (e.inputs.map fun m => m.values.map ρ) = values ∧
          Shows (e.partials g I ρ i o) (f.outPattern o) (f.inPattern i) compact
            (F.outputOf I.algebra values 0) := by
  obtain ⟨m, h, hrun, hgrow, hhas, hshows⟩ := exists_jac_has hr hg hi ho compact false hsize
  obtain ⟨F, t, hmake, hmakes⟩ := hr.exists_withOutput hgrow hhas "jac_"
  refine ⟨F, h, ?_, hgrow, fun I hexact values hvalues =>
    ⟨t.reading e.inputs 0 values [], ?_, ?_⟩⟩
  · rw [jacobian, ScalarBuilder.bind_of_ok hrun]
    exact hmake
  · refine MatrixFunction.map_reading_inputs (ScalarTape.compiled_of_compile hmakes.compile) ?_
    rw [hvalues, inSizes, hr.holds.inPatterns, List.map_map]
    rfl
  · rw [outputOf_of_makes hmakes]
    exact hshows I _ hexact fun htold => absurd htold Bool.false_ne_true

end ScalarFunction

/-! ### Partial derivatives -/

namespace MatrixFunction

variable {f : MatrixFunction} {tape : MatrixTape} {inputs outputs : List (SparseMatrix ScalarId)}
  {t : ScalarTape} {k : ScalarFunction} {h : ScalarGraph} {values : Bundle V} {ρ : ScalarId → V}
  {i o n j : Nat}

theorem getD_map_values {W : Type} (ms : List (SparseMatrix ScalarId)) (φ : ScalarId → W) (i : Nat) :
    (ms.map fun m => m.values.map φ).getD i []
      = ((ms.map SparseMatrix.values).getD i []).map φ := by
  rw [List.getD_eq_getElem?_getD, List.getD_eq_getElem?_getD, List.getElem?_map, List.getElem?_map]
  cases ms[i]? <;> rfl

theorem Unrolled.nnz_inPattern (hk : f.Unrolled tape inputs outputs t k h) (i : Nat) :
    (f.inPattern i).nnz = (ScalarTape.countsOf inputs).getD i 0 := by
  rw [inPattern, ← hk.inPatterns]
  exact (ScalarFunction.nnz_getD _ i).trans (by rw [List.map_map]; rfl)

theorem Unrolled.nnz_outPattern (hk : f.Unrolled tape inputs outputs t k h) (o : Nat) :
    (f.outPattern o).nnz = (ScalarTape.countsOf outputs).getD o 0 := by
  rw [outPattern, ← hk.outPatterns]
  exact (ScalarFunction.nnz_getD _ o).trans (by rw [List.map_map]; rfl)

/-- Only one symbol stands in a place of the inputs. -/
theorem Unrolled.eq_valueAt_iff (hk : f.Unrolled tape inputs outputs t k h)
    (hj : j < (f.inPattern i).nnz) {x : ScalarId} {i' l : Nat}
    (hx : (⟨x, i', l⟩ : ScalarTape.Place) ∈ ScalarTape.places inputs) :
    x = valueAt inputs i j ↔ i' = i ∧ l = j := by
  have hmem := valueAt_mem_places (hk.nnz_inPattern i ▸ hj)
  constructor
  · intro hsame
    have hplace := List.inj_on_of_nodup_map
      (ScalarTape.compiled_of_compile hk.makes.compile).distinct hx hmem (by rw [hsame])
    exact ⟨congrArg ScalarTape.Place.index hplace, congrArg ScalarTape.Place.nonzero hplace⟩
  · rintro ⟨rfl, rfl⟩
    exact (mem_places_valueAt.mp hx).2

/-- Symbols that move along one of them are inputs that move along one nonzero. -/
theorem Unrolled.map_unit (hk : f.Unrolled tape inputs outputs t k h)
    (hρ : (inputs.map fun m => m.values.map ρ) = values) (hj : j < (f.inPattern i).nnz) :
    (inputs.map fun m => m.values.map fun x =>
        dualOf (ρ x) (ScalarGraph.unit (valueAt inputs i j) x))
      = movedValues values (unitAt V i j) := by
  refine List.ext_getElem? fun i' => ?_
  rw [movedValues, List.getElem?_map, List.getElem?_map, List.getElem?_zipIdx, ← hρ, List.getElem?_map]
  cases hm : inputs[i']? with
  | none => rfl
  | some m =>
    simp only [Option.map_some, Option.some.injEq]
    refine List.ext_getElem? fun l => ?_
    rw [List.getElem?_map, List.getElem?_map, List.getElem?_zipIdx, List.getElem?_map]
    cases hx : m.values[l]? with
    | none => rfl
    | some x =>
      have hplace : (⟨x, i', l⟩ : ScalarTape.Place) ∈ ScalarTape.places inputs :=
        ScalarTape.mem_places.mpr ⟨m, hm, hx⟩
      simp only [Option.map_some, Option.some.injEq, ScalarGraph.unit, unitAt, Nat.zero_add]
      exact congrArg (dualOf _) (if_congr (hk.eq_valueAt_iff hj hplace) rfl rfl)

/-- **Expansion keeps partial derivatives.** -/
theorem Unrolled.partials_eq (hk : f.Unrolled tape inputs outputs t k h) (hexact : I.Exact h)
    (hρ : (inputs.map fun m => m.values.map ρ) = values) (hn : n < (f.outPattern o).nnz)
    (hj : j < (f.inPattern i).nnz) :
    (ScalarFunction.Expressions.mk inputs outputs none).partials h I ρ i o n j
      = tape.partials I values f.outCount i o n j := by
  have hrun := hk.values _ I.dualAlgebra (fun x =>
    dualOf (ρ x) (ScalarGraph.unit (valueAt inputs i j) x)) I.dual.simplifies hexact.dual
  rw [hk.map_unit hρ hj] at hrun
  rw [ScalarFunction.Expressions.partials, if_pos ⟨hk.nnz_outPattern o ▸ hn, hk.nnz_inPattern i ▸ hj⟩,
    ScalarGraph.partialIn, ScalarGraph.tangent_eq_snd, MatrixTape.partials, MatrixTape.tangents, ← hrun,
    getD_map_values]
  have hvalue : ((outputs.map SparseMatrix.values).getD o [])[n]? = some (valueAt outputs o n) :=
    getElem?_values_getD.trans (if_pos (hk.nnz_outPattern o ▸ hn))
  rw [List.map_map, List.getD_eq_getElem?_getD, List.getElem?_map, hvalue]
  rfl

/-! ### Jacobians on both sides -/

/-- The first outputs of a matrix function and of a scalar function evaluate to the same matrix, over every
ring in which all that was folded for them is exact and for all arguments of the sizes. -/
def Agrees (F : MatrixFunction) (mh : MatrixGraph) (K : ScalarFunction) (h : ScalarGraph)
    (sizes : List Nat) : Prop :=
  ∀ (V : Type) [CommRing V] (I : Interpretation V), I.algebra.Exact mh.folds →
    mh.DerivedExact I.algebra → I.Exact h → ∀ values : Bundle V, values.map List.length = sizes →
      ∀ r c, F.outputOf I.algebra values 0 r c = K.outputOf I.algebra values 0 r c

/-- The Jacobian of an expansion agrees with the Jacobian. -/
theorem Unrolled.exists_agrees (hk : f.Unrolled tape inputs outputs t k h) {mg mh : MatrixGraph}
    (hf : f.Ready mg) (hmg : mg.WellTyped) (hcompiled : mg.RoutinesCompiled)
    (htape : f.tape? = some tape) {compact : Bool} {F : MatrixFunction}
    (hrun : f.jacobian i o compact false mg = .ok F mh) :
    ∃ K h', k.jacobian i o compact false h = .ok K h' ∧ F.Agrees mh K h' f.inSizes := by
  have hshows : ∀ {V : Type} [CommRing V] (I : Interpretation V) (values : Bundle V),
      mg.Grows mh ∧ (i < f.inCount ∧ o < f.outCount ∧
        (compact = true ∨
          (f.outPattern o).numel < countLimit ∧ (f.inPattern i).numel + 1 < tableLimit)) ∧
        (mh.Reliable I (MatrixTape.supply f.inputs values) →
          ScalarFunction.Shows (tape.partials I values f.outCount i o) (f.outPattern o)
            (f.inPattern i) compact (F.outputOf I.algebra values 0)) := by
    intro V _ I values
    have hshown := shows_jacobian I values i o compact (fun _ => hf) hcompiled htape
      fun htold => absurd htold Bool.false_ne_true
    obtain ⟨hgrow, -, hshows⟩ := hshown.of_run hmg hrun
    exact ⟨hgrow, hshows⟩
  -- that there is a Jacobian does not depend on the interpretation
  obtain ⟨hgrow, ⟨hi, ho, hsize⟩, -⟩ := hshows Interpretation.trivial []
  have hin : k.inPatterns = f.inPatterns := hk.makes.inPatterns.trans hk.inPatterns
  have hout : k.outPatterns = f.outPatterns := hk.makes.outPatterns.trans hk.outPatterns
  have hinCount : k.inCount = f.inCount := by
    rw [ScalarFunction.inCount, hin, hf.inCount_eq]
  have houtCount : k.outCount = f.outCount := by
    rw [ScalarFunction.outCount, hout, hf.outCount_eq]
  have hinPattern : k.inPattern i = f.inPattern i := by rw [ScalarFunction.inPattern, hin, inPattern]
  have houtPattern : k.outPattern o = f.outPattern o := by
    rw [ScalarFunction.outPattern, hout, outPattern]
  obtain ⟨K, h', hrun', hgrow', hshows'⟩ := ScalarFunction.exists_jacobian hk.makes.ready hk.founded
    (hinCount ▸ hi) (houtCount ▸ ho) compact (by rwa [houtPattern, hinPattern])
  refine ⟨K, h', hrun', fun V _ I hexact hderived hexact' values hvalues r c => ?_⟩
  have hadmits := (hf.grow hgrow).admits htape hexact hvalues
  obtain ⟨ρ, hρ, hshown⟩ := hshows' I hexact' values (by rw [ScalarFunction.inSizes, hin, hvalues, inSizes])
  rw [houtPattern, hinPattern] at hshown
  exact ((hshows I values).2.2 ⟨hadmits, hderived⟩).congr hshown (fun n hn j hj =>
    (hk.partials_eq (ScalarGraph.exact_of_grows hgrow' hexact') hρ hn hj).symm) r c

end MatrixFunction

/-! ### After every history -/

namespace LinkedHistory

variable {gs : GraphId → Option MatrixGraph} {fs : List MatrixFunction} {f F : MatrixFunction}
  {tape : MatrixTape} {id : GraphId} {g h : MatrixGraph} {i o : Nat} {compact : Bool}

/-- **Differentiation commutes with expansion.** If a function without free symbols has a Jacobian in a
graph that shares its own, then every expansion of the function, on new symbols or on different given
ones in any scalar graph, has one too, and the two evaluate to the same matrix. -/
theorem agrees_jacobian (hist : LinkedHistory gs fs) (hf : f ∈ fs) (htape : f.tape? = some tape)
    (hclosed : tape.freeSymbols = []) (hg : gs id = some g) (hlives : f.livesIn g = true)
    (hrun : f.jacobian i o compact false g = .ok F h) {scalars : GraphId → Option ScalarGraph}
    {functions : List ScalarFunction} (hscalars : ScalarHistory scalars functions) {id' : GraphId}
    {s : ScalarGraph} (hs : scalars id' = some s) :
    (∃ k s₁ K s₂, f.expand s = .ok k s₁ ∧ k.jacobian i o compact false s₁ = .ok K s₂ ∧
      F.Agrees h K s₂ f.inSizes) ∧
    ∀ symbols : List ScalarId, (∀ e ∈ symbols, s.isSymbol e = true) → symbols.Nodup →
      symbols.length = f.inSizes.foldr (· + ·) 0 →
      ∃ k s₁ K s₂, f.expandWith symbols s = .ok k s₁ ∧ k.jacobian i o compact false s₁ = .ok K s₂ ∧
        F.Agrees h K s₂ f.inSizes := by
  have hready := hist.history.ready hf hg hlives
  have htyped := hist.history.invariant.2.1 _ _ hg
  have hcompiled := hist.routinesCompiled id g hg
  have hfounded := hscalars.founded hs
  constructor
  · obtain ⟨k, s₁, hexpand, -, inputs, outputs, t, hk⟩ :=
      MatrixFunction.yields_expand hready htyped htape hclosed hfounded
    obtain ⟨K, s₂, hjacobian, hagrees⟩ := hk.exists_agrees hready htyped hcompiled htape hrun
    exact ⟨k, s₁, K, s₂, hexpand, hjacobian, hagrees⟩
  · intro symbols hsymbols hnodup hcount
    obtain ⟨k, s₁, hexpand, -, inputs, outputs, t, hk⟩ :=
      MatrixFunction.yields_expandWith hready htyped htape hclosed hsymbols hnodup hcount hfounded
    obtain ⟨K, s₂, hjacobian, hagrees⟩ := hk.exists_agrees hready htyped hcompiled htape hrun
    exact ⟨k, s₁, K, s₂, hexpand, hjacobian, hagrees⟩

end LinkedHistory

/-! ### The embedded product -/

/-- The Jacobian of the product is that of its expansions, on new symbols and on the two symbols of a
graph. -/
theorem EmbeddedProduct.agrees_jacobian_symbols :
    ∃ F h, (functionWith (some tape)).jacobian 0 0 false false graph = .ok F h ∧
      (∃ k s₁ K s₂, (functionWith (some tape)).expand Product.graph = .ok k s₁ ∧
        k.jacobian 0 0 false false s₁ = .ok K s₂ ∧ F.Agrees h K s₂ [2]) ∧
      ∃ k s₁ K s₂, (functionWith (some tape)).expandWith [⟨3⟩, ⟨4⟩] Product.graph = .ok k s₁ ∧
        k.jacobian 0 0 false false s₁ = .ok K s₂ ∧ F.Agrees h K s₂ [2] := by
  have hok : (((functionWith (some tape)).jacobian 0 0 false false).run' graph).isSome = true := by
    decide +kernel
  cases hrun : (functionWith (some tape)).jacobian 0 0 false false graph with
  | error e h =>
    delta EStateM.run' EStateM.run at hok
    rw [hrun] at hok
    contradiction
  | ok F h =>
    have hgraph : Function.update (fun _ => none) (GraphId.numbered 0) (some graph) (.numbered 0)
        = some graph := Function.update_self ..
    obtain ⟨hnew, hgiven⟩ := functions.agrees_jacobian (List.mem_cons_self ..) rfl rfl hgraph
      (by decide) hrun Product.history
      (show Product.graphs (.numbered 0) = some Product.graph from Function.update_self ..)
    exact ⟨F, h, rfl, hnew, hgiven [⟨3⟩, ⟨4⟩] (by decide) (by decide) (by decide)⟩

end Fluxion
