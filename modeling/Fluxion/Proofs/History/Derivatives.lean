import Fluxion.Proofs.History.Calls
import Fluxion.Proofs.History.Embedding
import Fluxion.Proofs.Scalar.Transpose

/-!
# Derivative functions by themselves

A function that has a tape and no free symbols has two derivative functions. They are made once, in
graphs of their own, and nothing that is done to the function or to its graph afterwards reaches them.
What they compute is said here in terms of the expressions that the function was made of, in the graph
of its handles. These expressions are there even when the function has dropped them.

The forward derivative is the formal tangent. The reverse derivative is determined by its pairing with
all directions of the inputs, so it is enough to say that both derivatives are transposes of each other.

Constants that were folded in the graph of a derivative function have to be exact. Those of the
function's own graph do not: the tape is all that is read of the function.

## Main definitions

* `ScalarFunction.Expressions.inputValues`, `ScalarFunction.Expressions.tangents` — what the inputs
  are where symbols have values, and how the outputs move
* `Routine.LivesIn` — routines that were compiled from expressions of a graph
* `FunctionObject.StandsAlone` — a function that needs nothing but its inputs

## Main results

* `Routine.stems_forwardDerivative`, `Routine.stems_reverseDerivative` — derivative functions have
  histories, so that all of this holds of their derivatives too
* `ScalarHistory.derivatives_transpose` — **derivative functions are correct**
-/

namespace Fluxion

open ScalarBuilder

open ScalarFunction (Expressions)

open TrivSqZeroExt (snd)

/-! ### Values and tangents of expressions -/

namespace ScalarFunction.Expressions

variable {V : Type}

/-- The inputs, where symbols have values. -/
def inputValues (e : Expressions) (ρ : ScalarId → V) : Bundle V :=
  e.inputs.map fun m => m.values.map ρ

/-- How the outputs move when symbols that have the values `ρ` move in the direction `dx`. -/
def tangents [CommRing V] (e : Expressions) (g : ScalarGraph) (I : Interpretation V)
    (ρ dx : ScalarId → V) : Bundle V :=
  e.outputs.map fun m => m.values.map (g.tangent I ρ dx)

end ScalarFunction.Expressions

namespace ScalarTape

variable {V : Type} {g : ScalarGraph} {inputs outputs : List (SparseMatrix ScalarId)}
  {tape : ScalarTape}

/-- Inputs are different symbols, so they can have any values. -/
theorem Resides.exists_inputValues [Zero V] {e : Expressions}
    (ht : Resides g e.inputs e.outputs tape) {x : Bundle V}
    (hx : x.map List.length = countsOf e.inputs) : ∃ ρ, e.inputValues ρ = x := by
  obtain ⟨origin, bound, hcompiled, -⟩ := ht
  exact ⟨tape.reading e.inputs 0 x [], MatrixFunction.map_reading_inputs hcompiled hx⟩

theorem map_ownDual {W : Type} (ρ dx : ScalarId → V) (f : DualNumber V → W) :
    (ownDual inputs ρ dx).map (·.map f) = inputs.map fun m => m.values.map fun e =>
      f (dualOf (ρ e) (dx e)) := by
  simp only [ownDual, List.map_map, Function.comp_def]

variable [CommRing V] {I : Interpretation V} {ρ dx : ScalarId → V}

/-- A run over dual numbers carries the tangents of the outputs. -/
theorem Resides.map_snd_replay (ht : Resides g inputs outputs tape) (hclosed : tape.freeSymbols = []) :
    (Id.run (tape.replay I.dualAlgebra (ownDual inputs ρ dx) [] (countsOf outputs))).map (·.map snd)
      = outputs.map fun m => m.values.map (g.tangent I ρ dx) := by
  have hsupplies : Supplies tape inputs (fun e => dualOf (ρ e) (dx e)) (I.dualAlgebra.constant 0.0)
      (ownDual inputs ρ dx) [] := by
    have hfixed : ∀ e ∈ tape.freeSymbols, dx e = 0 := by
      rw [hclosed]
      exact fun e he => nomatch he
    have hown := supplies_own inputs ρ hfixed
    have hzero : I.dualAlgebra.constant 0.0 = 0 := I.dual.literal_zero
    rwa [freeDual, hclosed, ← hzero] at hown
  rw [ht.replay_eq hsupplies, List.map_map]
  refine List.map_congr_left fun m _ => ?_
  rw [Function.comp_apply, List.map_map]
  exact List.map_congr_left fun e _ => (ScalarGraph.tangent_eq_snd e).symm

end ScalarTape

/-! ### Derivatives of routines -/

namespace Routine

/-- The routine was compiled from expressions that the graph has. -/
structure LivesIn (r : Routine) (g : ScalarGraph) (e : Expressions) : Prop where
  resides : ScalarTape.Resides g e.inputs e.outputs r.tape
  inPatterns : r.inPatterns = e.inputs.map SparseMatrix.pattern
  outPatterns : r.outPatterns = e.outputs.map SparseMatrix.pattern

variable {V : Type} {r s : Routine} {d : FunctionObject} {g : ScalarGraph} {e : Expressions}

namespace LivesIn

theorem inSizes (hr : r.LivesIn g e) : r.inSizes = ScalarTape.countsOf e.inputs := by
  rw [Routine.inSizes, hr.inPatterns, ScalarTape.map_nnz_pattern]

theorem outSizes (hr : r.LivesIn g e) : r.outSizes = ScalarTape.countsOf e.outputs := by
  rw [Routine.outSizes, hr.outPatterns, ScalarTape.map_nnz_pattern]

theorem map_length_ownDual (hr : r.LivesIn g e) (ρ dx : ScalarId → V) :
    (ScalarTape.ownDual e.inputs ρ dx).map List.length = r.inSizes := by
  rw [hr.inSizes, ScalarTape.ownDual, List.map_map, List.map_map]
  refine List.map_congr_left fun m _ => ?_
  simp only [Function.comp_apply, List.length_map, m.length_values]

variable [CommRing V] {I : Interpretation V} {ρ dx : ScalarId → V}

theorem map_snd_replay (hr : r.LivesIn g e) :
    (Id.run (r.tape.replay I.dualAlgebra (ScalarTape.ownDual e.inputs ρ dx) [] r.outSizes)).map
      (·.map snd) = e.tangents g I ρ dx := by
  rw [hr.outSizes]
  exact hr.resides.map_snd_replay r.closed

/-- **The forward derivative** is the formal tangent. -/
theorem replay_forwardDerivative (hr : r.LivesIn g e) (hd : r.forwardDerivative = .ok d)
    (hs : d.routine = .ok s) (hexact : d.FoldsExact I.algebra) :
    Id.run (s.tape.replay I.algebra (e.inputValues ρ ++ e.inputValues dx) [] s.outSizes)
      = e.tangents g I ρ dx := by
  have hreplay := Routine.replay_forwardDerivative hd hs hexact
    (hr.map_length_ownDual ρ dx)
  rwa [hr.map_snd_replay, ScalarTape.map_ownDual, ScalarTape.map_ownDual] at hreplay

/-- **The reverse derivative**, paired with a direction of the inputs, is the weighted tangent. -/
theorem dot_reverseDerivative (hr : r.LivesIn g e) (hcompiled : r.IsCompiled)
    (hd : r.reverseDerivative = .ok d) (hs : d.routine = .ok s) (hexact : d.FoldsExact I.algebra)
    {w : Bundle V} (hw : w.map List.length = r.outSizes) :
    Bundle.dot r.outSizes w (e.tangents g I ρ dx)
      = Bundle.dot r.inSizes
        (Id.run (s.tape.replay I.algebra (e.inputValues ρ ++ w) [] s.outSizes))
        (e.inputValues dx) := by
  have hpairing := pairing_reverseDerivative hcompiled hd hs hexact
    (hr.map_length_ownDual ρ dx) hw
  rw [Bundle.pairing_map, Bundle.pairing_map, hr.map_snd_replay, ScalarTape.map_ownDual,
    ScalarTape.map_ownDual] at hpairing
  exact hpairing.symm

end LivesIn

/-! ### Histories of derivative functions -/

/-- A function in a graph of its own has the history of that graph. -/
theorem stems_standalone {id : FunctionId} {front : String} {f : ScalarFunction}
    {build : ScalarBuilder (List (SparseMatrix ScalarId) × List (SparseMatrix ScalarId))}
    {Q : List (SparseMatrix ScalarId) × List (SparseMatrix ScalarId) → ScalarGraph → Prop}
    (hbuild : Yields build (.new (.standalone id)) Q) (hf : r.standalone id front build = .ok f) :
    ∃ gs fs, ScalarHistory gs fs ∧ f ∈ fs := by
  obtain ⟨inputs, outputs, g, k, hrun, hmake, rfl⟩ := standalone_eq_ok hf
  have hgrow := (hbuild.of_run (ScalarGraph.founded_new _) hrun).1
  have hist := (ScalarHistory.new (.standalone id) .start rfl).grow (Function.update_self ..) hgrow
  have hmade : ScalarRequest.AllMade [k] g :=
    List.forall_mem_singleton.mpr ⟨inputs, outputs, _, hmake⟩
  obtain ⟨fs, hsubset, hist⟩ := hist.make (Function.update_self ..) hmade
  exact ⟨_, _, hist.settle (i := .standalone id) (Function.update_self ..)
    (hsubset (List.mem_cons_self ..)), List.mem_cons_self ..⟩

/-- **Forward derivatives have histories.** -/
theorem stems_forwardDerivative (hd : r.forwardDerivative = .ok d) : d.Stems :=
  stems_standalone (yields_forwardExpressions (I := .trivial) r fun _ => ())
    (function_forwardDerivative hd)

/-- **Reverse derivatives have histories.** -/
theorem stems_reverseDerivative (hd : r.reverseDerivative = .ok d) : d.Stems :=
  stems_standalone (yields_reverseExpressions (I := .trivial) r
    (Bundle.map_length_replicate () r.inSizes) fun _ => ()) (function_reverseDerivative hd)

end Routine

/-! ### Derivatives of functions -/

/-- A function that needs nothing but its inputs: its patterns and its tape. -/
structure FunctionObject.StandsAlone (d : FunctionObject) (inPatterns outPatterns : List Pattern)
    (tape : ScalarTape) : Prop where
  hasTape : d.function.stage.tape? = some tape
  closed : tape.freeSymbols = []
  inPatterns : d.function.inPatterns = inPatterns
  outPatterns : d.function.outPatterns = outPatterns

theorem Routine.standsAlone {d : FunctionObject} {s : Routine} (hs : d.routine = .ok s) :
    d.StandsAlone s.inPatterns s.outPatterns s.tape := by
  obtain ⟨hin, hout⟩ := patterns_routine hs
  refine ⟨?_, s.closed, hin.symm, hout.symm⟩
  cases htape : d.function.stage.tape? with
  | some tape => rw [tape_of_routine htape hs]
  | none => simp [FunctionObject.routine, ScalarFunction.tape, htape, bind, Except.bind] at hs

namespace ScalarHistory

/-- **Derivative functions are correct.** A function that has a tape and no free symbols has a forward
and a reverse derivative, dropped expressions or not. They take the inputs, and with them a direction
for each input or a weight for each output. At all values `x` of the inputs the forward derivative gives
the formal tangent of the expressions along `t`, and the reverse derivative, paired with `t`, is that
tangent weighted by `s`. -/
theorem derivatives_transpose {gs : GraphId → Option ScalarGraph} {fs : List ScalarFunction}
    (hist : ScalarHistory gs fs) {o : FunctionObject} (ho : o.function ∈ fs) {tape : ScalarTape}
    (htape : o.function.stage.tape? = some tape) (hclosed : tape.freeSymbols = []) :
    ∃ r forward reverse k l e g,
      o.routine = .ok r ∧ r.forwardDerivative = .ok forward ∧ r.reverseDerivative = .ok reverse ∧
      forward.StandsAlone (o.function.inPatterns ++ o.function.inPatterns) o.function.outPatterns k ∧
      reverse.StandsAlone (o.function.inPatterns ++ o.function.outPatterns) o.function.inPatterns l ∧
      o.function.Holds e ∧ (∀ e', o.function.stage.expressions? = some e' → e' = e) ∧
      gs o.function.owner.graph = some g ∧ ScalarTape.Resides g e.inputs e.outputs tape ∧
      ∀ (V : Type) [CommRing V] (I : Interpretation V) (x t s : Bundle V),
        x.map List.length = o.function.inSizes → t.map List.length = o.function.inSizes →
        s.map List.length = o.function.outSizes →
        (∃ ρ, e.inputValues ρ = x) ∧ (∃ dx, e.inputValues dx = t) ∧
        ∀ ρ dx : ScalarId → V, e.inputValues ρ = x → e.inputValues dx = t →
          (forward.FoldsExact I.algebra →
            Id.run (k.replay I.algebra (x ++ t) [] o.function.outSizes) = e.tangents g I ρ dx) ∧
          (reverse.FoldsExact I.algebra →
            Bundle.dot o.function.outSizes s (e.tangents g I ρ dx)
              = Bundle.dot o.function.inSizes
                (Id.run (l.replay I.algebra (x ++ s) [] o.function.inSizes)) t) := by
  obtain ⟨e, hholds, hown, ⟨g, hg, hlives⟩, hresides⟩ := hist.exists_resides ho htape
  obtain ⟨r, hr⟩ := Routine.routine_eq_ok (ScalarFunction.tape_eq_ok htape) hclosed
  obtain ⟨forward, k, hforward, hk⟩ := r.exists_forwardDerivative
  obtain ⟨reverse, l, hreverse, hl⟩ := r.exists_reverseDerivative
  obtain ⟨hin, hout⟩ := Routine.patterns_routine hr
  obtain ⟨hkin, hkout⟩ := Routine.patterns_forwardDerivative hforward hk
  obtain ⟨hlin, hlout⟩ := Routine.patterns_reverseDerivative hreverse hl
  have hsits := hresides hg hlives
  have hcompiled : r.IsCompiled := o.isCompiled_routine (hist.isCompiled _ ho) hr
  have hr' : r.LivesIn g e :=
    ⟨by rwa [Routine.tape_of_routine htape hr], hin.trans hholds.inPatterns,
      hout.trans hholds.outPatterns⟩
  have hinSizes : o.function.inSizes = r.inSizes := hholds.inSizes.trans hr'.inSizes.symm
  have houtSizes : o.function.outSizes = r.outSizes := hholds.outSizes.trans hr'.outSizes.symm
  have hksizes : k.outSizes = r.outSizes := congrArg (List.map Pattern.nnz) hkout
  have hlsizes : l.outSizes = r.inSizes := congrArg (List.map Pattern.nnz) hlout
  have hkalone := Routine.standsAlone hk
  have hlalone := Routine.standsAlone hl
  rw [hkin, hkout, hin, hout] at hkalone
  rw [hlin, hlout, hin, hout] at hlalone
  refine ⟨r, forward, reverse, k.tape, l.tape, e, g, hr, hforward, hreverse, hkalone, hlalone, hholds,
    hown, hg, hsits, fun V _ I x t s hx ht hs => ?_⟩
  rw [hinSizes] at hx ht ⊢
  rw [houtSizes] at hs ⊢
  refine ⟨hsits.exists_inputValues (hx.trans hr'.inSizes), hsits.exists_inputValues
    (ht.trans hr'.inSizes), ?_⟩
  rintro ρ dx rfl rfl
  refine ⟨fun hexact => ?_, fun hexact => ?_⟩
  · rw [← hksizes]
    exact hr'.replay_forwardDerivative hforward hk hexact
  · rw [hr'.dot_reverseDerivative hcompiled hreverse hl hexact hs, hlsizes]

end ScalarHistory

namespace EmbeddedProduct

/-- The graph that a derivative function keeps has folded no constants. -/
def keepsNoFolds (d : Except Error FunctionObject) : Bool :=
  d.toOption.all fun d => d.function.home.all fun g => g.folds.isEmpty

theorem foldsExact_of_keepsNoFolds {V : Type} {A : Algebra Id V} {d : FunctionObject}
    (h : keepsNoFolds (.ok d) = true) : d.FoldsExact A := by
  intro home hhome
  have hnone : home.folds.isEmpty = true := by simpa [keepsNoFolds, Except.toOption, hhome] using h
  rw [List.isEmpty_iff.mp hnone]
  exact fun _ hf => nomatch hf

/-- The tangent of a product, by the rule for products. -/
theorem tangents_product {V : Type} [CommRing V] (I : Interpretation V) {ρ dx : ScalarId → V}
    {x y t u : V} (hρ : Product.expressions.inputValues ρ = [[x, y]])
    (hdx : Product.expressions.inputValues dx = [[t, u]]) :
    Product.expressions.tangents Product.graph I ρ dx = [[y * t + x * u]] := by
  have hinputs : ∀ σ : ScalarId → V, Product.expressions.inputValues σ = [[σ ⟨3⟩, σ ⟨4⟩]] :=
    fun _ => rfl
  simp only [hinputs, List.cons.injEq, and_true] at hρ hdx
  obtain ⟨rfl, rfl⟩ := hρ
  obtain ⟨rfl, rfl⟩ := hdx
  have htangent : Product.graph.tangent I ρ dx ⟨5⟩ = ρ ⟨4⟩ * dx ⟨3⟩ + ρ ⟨3⟩ * dx ⟨4⟩ := by
    rw [ScalarGraph.tangent_of_node? (n := .binary .mul ⟨3⟩ ⟨4⟩) rfl]
    simp only [ScalarGraph.nodeTangent]
    rw [ScalarGraph.value_of_isSymbol (e := ⟨3⟩) rfl, ScalarGraph.value_of_isSymbol (e := ⟨4⟩) rfl,
      ScalarGraph.tangent_of_node? (e := ⟨3⟩) (n := .symbol 0) rfl,
      ScalarGraph.tangent_of_node? (e := ⟨4⟩) (n := .symbol 1) rfl]
    rfl
  rw [← htangent]
  rfl

/-- At the factors 3 and 5, moving by 1 and 2, the product moves by 11. With the weight 10 the reverse
derivative makes 110 of it. -/
theorem derivatives_transpose_product :
    ∃ r forward reverse k l,
      object.routine = .ok r ∧ r.forwardDerivative = .ok forward ∧ r.reverseDerivative = .ok reverse ∧
      forward.StandsAlone [.denseColumn 2, .denseColumn 2] [.scalar] k ∧
      reverse.StandsAlone [.denseColumn 2, .scalar] [.denseColumn 2] l ∧
      Id.run (k.replay DampedSine.squaring.algebra [[3, 5], [1, 2]] [] [1]) = [[11]] ∧
      110 = Bundle.dot [2]
        (Id.run (l.replay DampedSine.squaring.algebra [[3, 5], [10]] [] [2])) [[1, 2]] := by
  obtain ⟨r, forward, reverse, k, l, e, g, hr, hforward, hreverse, hk, hl, -, hown, hg, -, hvalues⟩ :=
    Product.history.derivatives_transpose (o := object) (List.mem_cons_self ..)
      (show object.function.stage.tape? = some Product.tape from rfl) rfl
  obtain rfl := hown Product.expressions rfl
  have hgraph : Product.graphs (.numbered 0) = some Product.graph := Function.update_self ..
  obtain rfl : Product.graph = g := Option.some.inj (hgraph.symm.trans hg)
  obtain ⟨⟨ρ, hρ⟩, ⟨dx, hdx⟩, hboth⟩ := hvalues Int DampedSine.squaring [[3, 5]] [[1, 2]] [[10]]
    rfl rfl rfl
  obtain ⟨hmoved, hweighed⟩ := hboth ρ dx hρ hdx
  rw [tangents_product DampedSine.squaring hρ hdx] at hmoved hweighed
  have hforwardFolds : keepsNoFolds (object.routine.bind (·.forwardDerivative)) = true := by
    decide +kernel
  have hreverseFolds : keepsNoFolds (object.routine.bind (·.reverseDerivative)) = true := by
    decide +kernel
  rw [hr, Except.bind, hforward] at hforwardFolds
  rw [hr, Except.bind, hreverse] at hreverseFolds
  have hdot : Bundle.dot [1] [[(10 : Int)]] [[11]] = 110 := by decide
  exact ⟨r, forward, reverse, k, l, hr, hforward, hreverse, hk, hl,
    hmoved (foldsExact_of_keepsNoFolds hforwardFolds),
    hdot.symm.trans (hweighed (foldsExact_of_keepsNoFolds hreverseFolds))⟩

end EmbeddedProduct

end Fluxion
