import Fluxion.Proofs.Scalar.Compile
import Fluxion.Proofs.Scalar.Reverse

/-!
# Sweeps of functions over their own expressions

A tape may be older than the graph that it is used with: the graph has grown since, or it is a copy.
What matters is that the nodes of the function's expressions are the same. Such a tape *resides* in
the graph, and what it computes is stated in terms of the graph alone.

Sweeps of a function over its own inputs give derivatives as expressions of the graph: forward sweeps
along directions of the inputs, reverse sweeps of weighted outputs.

## Main definitions

* `ScalarTape.Resides` — the graph has the expressions that a tape was compiled from
* `ScalarTape.Moves` — a seed that moves the inputs in a direction

## Main results

* `ScalarTape.Resides.read_finish` — outputs are values of expressions of the graph
* `ScalarTape.yields_forward_own` — **forward sweeps give derivatives along directions**
* `ScalarTape.yields_reverse_own` — **reverse sweeps give derivatives of weighted outputs**
-/

namespace Fluxion

open ScalarBuilder

namespace ScalarGraph

variable {V : Type} [CommRing V] {g h : ScalarGraph} {I : Interpretation V}
  {ρ dx : ScalarId → V}

theorem tangent_eq_snd (e : ScalarId) :
    g.tangent I ρ dx e = (g.value I.dual (fun x => dualOf (ρ x) (dx x)) e).snd := by
  rw [evaluate_dual, snd_dualOf]

theorem value_of_isSymbol {e : ScalarId} (he : g.isSymbol e = true) : g.value I ρ e = ρ e :=
  evaluate_of_isSymbol he

theorem reads_of_isSymbol {e : ScalarId} (he : g.isSymbol e = true) :
    g.Reads I ρ e (ρ e) :=
  ⟨has_of_isSymbol he, fun _ => value_of_isSymbol he⟩

theorem AgreeBelow.isSymbol {bound : Nat} (hagree : AgreeBelow g h bound) {e : ScalarId}
    (he : e.index < bound) : h.isSymbol e = g.isSymbol e := by
  rw [ScalarGraph.isSymbol, ScalarGraph.isSymbol, hagree e he]

theorem AgreeBelow.trans {k : ScalarGraph} {bound : Nat} (hgh : AgreeBelow g h bound)
    (hhk : AgreeBelow h k bound) : AgreeBelow g k bound :=
  fun e he => (hgh e he).trans (hhk e he)

theorem AgreeBelow.mono {bound bound' : Nat} (hgh : AgreeBelow g h bound) (hle : bound' ≤ bound) :
    AgreeBelow g h bound' :=
  fun e he => hgh e (Nat.lt_of_lt_of_le he hle)

end ScalarGraph

namespace ScalarTape

/-! ### Tapes in a graph -/

/-- The graph `g` has, as they were when the tape was compiled, all nodes below a bound that the
expressions stay below. -/
def Resides (g : ScalarGraph) (inputs outputs : List (SparseMatrix ScalarId)) (tape : ScalarTape) :
    Prop :=
  ∃ (origin : ScalarGraph) (bound : Nat), Compiled origin inputs outputs tape ∧
    ScalarGraph.AgreeBelow origin g bound ∧ bound ≤ origin.size ∧ bound ≤ g.size ∧
    (∀ p ∈ places inputs, p.e.index < bound) ∧ ∀ p ∈ places outputs, p.e.index < bound

variable {g h : ScalarGraph} {inputs outputs : List (SparseMatrix ScalarId)} {tape : ScalarTape}

namespace Resides

theorem grow (ht : Resides g inputs outputs tape) (hgrow : g.Grows h) :
    Resides h inputs outputs tape := by
  obtain ⟨origin, bound, hcompiled, hagree, horigin, hsize, hin, hout⟩ := ht
  exact ⟨origin, bound, hcompiled, hagree.trans (hgrow.agreeBelow.mono hsize), horigin,
    Nat.le_trans hsize hgrow.size_le, hin, hout⟩

theorem isSymbol_input (ht : Resides g inputs outputs tape) {p : Place} (hp : p ∈ places inputs) :
    g.isSymbol p.e = true := by
  obtain ⟨origin, bound, hcompiled, hagree, -, -, hin, -⟩ := ht
  rw [hagree.isSymbol (hin p hp)]
  exact hcompiled.symbols p hp

theorem distinct (ht : Resides g inputs outputs tape) :
    ((places inputs).map fun p => p.e.index).Nodup := by
  obtain ⟨origin, bound, hcompiled, -⟩ := ht
  exact hcompiled.distinct

/-- Free symbols are symbols of the graph, and no inputs. -/
theorem free (ht : Resides g inputs outputs tape) {e : ScalarId} (he : e ∈ tape.freeSymbols) :
    g.isSymbol e = true ∧ ∀ p ∈ places inputs, p.e ≠ e := by
  obtain ⟨origin, bound, hcompiled, hagree, horigin, -, hin, hout⟩ := ht
  rw [hcompiled.free, List.mem_filter] at he
  obtain ⟨hmem, hfree⟩ := he
  obtain ⟨n, hn, rfl⟩ := List.mem_map.mp hmem
  have hlt : n < bound := Schedule.lt_of_mem_computed (operandNumbers_lt origin) horigin
    (List.forall_mem_map.mpr hout) hn
  rw [Bool.and_eq_true] at hfree
  refine ⟨by rw [hagree.isSymbol hlt]; exact hfree.1, ?_⟩
  intro p hp hpe
  have := inputPlace?_of_mem (g := origin) hcompiled.distinct hp
    (Nat.lt_of_lt_of_le (hin p hp) horigin)
  rw [hpe] at this
  simp [this] at hfree

section Values

variable {W : Type} {A : Algebra Id W} {given : ScalarId → W} {values : Bundle W}
  {freeValues : List W}

/-- **Outputs are values of expressions of the graph.** -/
theorem read_finish (ht : Resides g inputs outputs tape)
    (hsupplies : Supplies tape inputs given (A.constant 0.0) values freeValues) {p : Place}
    (hp : p ∈ places outputs) :
    (tape.finish A values freeValues (countsOf outputs)).outputs.read (A.constant 0.0)
      p.index p.nonzero = g.evaluate A given p.e := by
  obtain ⟨origin, bound, hcompiled, hagree, -, -, -, hout⟩ := ht
  rw [ScalarTape.read_finish hcompiled hsupplies hp]
  exact ScalarGraph.evaluate_congr hagree (hout p hp)

end Values

/-- No place of the inputs is loaded twice. -/
theorem loadsOnce {V : Type} [CommRing V] (ht : Resides g inputs outputs tape) (seed : Grid V) :
    LoadsOnce ((places inputs).map fun p => (p.index, p.nonzero)).toFinset
      ⟨seed, .start 0 tape.workSize (countsOf inputs)⟩ tape.instrs := by
  obtain ⟨origin, bound, hcompiled, -⟩ := ht
  refine ⟨hcompiled.loads.1, fun q hq => ?_⟩
  obtain ⟨p, hp, rfl⟩ := hcompiled.loads.2 q hq
  refine ⟨by simpa using ⟨p, hp, rfl, rfl⟩, ?_, Grid.read_fill ..⟩
  have hwidth : (Run.start (0 : V) tape.workSize (countsOf inputs)).outputs.width p.index
      = (countsOf inputs).getD p.index 0 := Grid.width_fill ..
  rw [hwidth]
  exact nonzero_lt_countsOf hp

/-- No place of the outputs is stored twice. -/
theorem storesOnce {V : Type} [CommRing V] (ht : Resides g inputs outputs tape) :
    StoresOnce ((places outputs).map fun p => (p.index, p.nonzero)).toFinset
      (.start (0 : DualNumber V) tape.workSize (countsOf outputs)) tape.instrs := by
  obtain ⟨origin, bound, hcompiled, -⟩ := ht
  rw [StoresOnce, hcompiled.stores]
  refine ⟨nodup_places outputs, fun q hq => ⟨List.mem_toFinset.mpr hq, ?_⟩⟩
  obtain ⟨p, hp, rfl⟩ := List.mem_map.mp hq
  have hzero : (Run.start (0 : DualNumber V) tape.workSize (countsOf outputs)).outputs.read 0
      p.index p.nonzero = 0 := Grid.read_fill ..
  have hwidth : (Run.start (0 : DualNumber V) tape.workSize (countsOf outputs)).outputs.width
      p.index = (countsOf outputs).getD p.index 0 := Grid.width_fill ..
  rw [hzero, hwidth]
  exact ⟨nonzero_lt_countsOf hp, rfl⟩

end Resides

/-! ### Sweeps over the inputs themselves -/

section Own

variable {V : Type} [CommRing V] {I : Interpretation V} {ρ : ScalarId → V}

/-- The inputs as dual numbers, when they move in a direction. -/
def ownDual (inputs : List (SparseMatrix ScalarId)) (ρ dx : ScalarId → V) :
    Bundle (DualNumber V) :=
  (inputs.map SparseMatrix.values).map (·.map fun e => dualOf (ρ e) (dx e))

/-- The free symbols as dual numbers: they do not move. -/
def freeDual (tape : ScalarTape) (ρ : ScalarId → V) : List (DualNumber V) :=
  tape.freeSymbols.map fun e => dualOf (ρ e) 0

variable (inputs ρ) in
theorem supplies_own {dx : ScalarId → V} (hfixed : ∀ e ∈ tape.freeSymbols, dx e = 0) :
    Supplies tape inputs (fun e => dualOf (ρ e) (dx e)) 0 (ownDual inputs ρ dx)
      (freeDual tape ρ) := by
  constructor
  · intro p hp
    obtain ⟨m, hm, he⟩ := mem_places.mp hp
    simp [ownDual, List.getD_eq_getElem?_getD, hm, he]
  · intro k e he
    simp [freeDual, List.getD_eq_getElem?_getD, he, hfixed e (List.mem_of_getElem? he)]

theorem Resides.reads_inputs (ht : Resides g inputs outputs tape) :
    Bundle.Related (fun e e' => g.Reads I ρ e (ρ e')) (inputs.map SparseMatrix.values)
      (inputs.map SparseMatrix.values) := by
  refine .of_forall₂ (List.forall₂_same.mpr fun row hrow => List.forall₂_same.mpr fun e he => ?_)
  obtain ⟨m, hm, rfl⟩ := List.mem_map.mp hrow
  obtain ⟨i, hi⟩ := List.getElem?_of_mem hm
  obtain ⟨k, hk⟩ := List.getElem?_of_mem he
  exact ScalarGraph.reads_of_isSymbol
    (ht.isSymbol_input (p := ⟨e, i, k⟩) (mem_places.mpr ⟨m, hi, hk⟩))

theorem Resides.freeReads (ht : Resides g inputs outputs tape) :
    FreeReads g I ρ tape.freeSymbols (freeDual tape ρ) := by
  rw [FreeReads, freeDual, List.forall₂_map_right_iff]
  exact List.forall₂_same.mpr fun e he => ⟨ScalarGraph.reads_of_isSymbol (ht.free he).1, rfl⟩

/-- A seed moves the inputs in a direction, and free symbols do not move. -/
structure Moves (g : ScalarGraph) (I : Interpretation V) (ρ : ScalarId → V)
    (inputs : List (SparseMatrix ScalarId)) (tape : ScalarTape) (seed : Bundle ScalarId)
    (dx : ScalarId → V) : Prop where
  fixed : ∀ e ∈ tape.freeSymbols, dx e = 0
  seed : Bundle.Related (fun s e => g.Reads I ρ s (dx e)) seed (inputs.map SparseMatrix.values)

/-- What a run over dual numbers says of an output: the derivative of its expression. -/
theorem Resides.snd_finish (ht : Resides g inputs outputs tape) {dx : ScalarId → V}
    (hfixed : ∀ e ∈ tape.freeSymbols, dx e = 0) {p : Place} (hp : p ∈ places outputs) :
    ((tape.finish I.dual.algebra (ownDual inputs ρ dx) (freeDual tape ρ)
        (countsOf outputs)).outputs.read 0 p.index p.nonzero).snd = g.tangent I ρ dx p.e := by
  have hzero : I.dual.algebra.constant 0.0 = 0 := I.dual.literal_zero
  have hread := ht.read_finish (A := I.dual.algebra)
    (by rw [hzero]; exact supplies_own inputs ρ hfixed) hp
  rw [hzero] at hread
  rw [hread, ScalarGraph.tangent_eq_snd]
  rfl

/-- **Forward sweeps of a function** give the derivatives of its outputs along directions. -/
theorem yields_forward_own (ht : Resides g inputs outputs tape) {seeds : List (Bundle ScalarId)}
    {dxs : List (ScalarId → V)}
    (hseeds : List.Forall₂ (Moves g I ρ inputs tape) seeds dxs) :
    Yields (tape.forward scalarAlgebra (inputs.map SparseMatrix.values) tape.freeSymbols seeds
        (countsOf outputs)) g fun res h =>
      List.Forall₂ (fun tangent dx => ∀ p ∈ places outputs,
        h.Reads I ρ ((tangent.getD p.index []).getD p.nonzero .zero) (g.tangent I ρ dx p.e))
        res.2 dxs := by
  have hinputs : ∀ row ∈ inputs.map SparseMatrix.values, ∀ e ∈ row, g.Has e := by
    intro row hrow e he
    obtain ⟨m, hm, rfl⟩ := List.mem_map.mp hrow
    obtain ⟨i, hi⟩ := List.getElem?_of_mem hm
    obtain ⟨k, hk⟩ := List.getElem?_of_mem he
    exact ScalarGraph.has_of_isSymbol
      (ht.isSymbol_input (p := ⟨e, i, k⟩) (mem_places.mpr ⟨m, hi, hk⟩))
  have hseeded : List.Forall₂ (Seeded g I ρ (inputs.map SparseMatrix.values)) seeds
      (dxs.map (ownDual inputs ρ)) := by
    rw [List.forall₂_map_right_iff]
    exact hseeds.imp fun seed dx hdx =>
      ⟨.map_right (ht.reads_inputs.imp fun _ _ he => he), .map_right hdx.seed⟩
  refine (yields_forward tape (countsOf outputs) hinputs hseeded ht.freeReads).imp
    fun res h _ hh hres => ?_
  rw [List.forall₂_map_right_iff] at hres
  have hfixed : ∀ dx ∈ dxs, ∀ e ∈ tape.freeSymbols, dx e = 0 :=
    forall_of_forall₂ (hseeds.imp fun _ _ hdx => hdx.fixed)
  refine (forall₂_and_mem hres.flip).flip.imp fun tangent dx htangent p hp => ?_
  rw [← ht.snd_finish (hfixed dx htangent.1) hp, ← Grid.getD_toBundle]
  exact Bundle.Related.getD htangent.2 hh.reads_zero p.index p.nonzero

/-- The weighted sum of the outputs, each replaced by what `f` says of it. -/
def weighted (outputs : List (SparseMatrix ScalarId)) (weight : Bundle V) (f : ScalarId → V) : V :=
  ((places outputs).map fun q => (weight.getD q.index []).getD q.nonzero 0 * f q.e).sum

/-- On the way back the adjoint of an input is the derivative of the weighted outputs in it. -/
theorem Resides.read_pullBack (ht : Resides g inputs outputs tape) (weight : Bundle V) {p : Place}
    (hp : p ∈ places inputs) :
    (pullBack I.algebra (.ofBundle (ownDual inputs ρ (ScalarGraph.unit p.e))) (freeDual tape ρ).toArray
        (.start 0 tape.workSize (countsOf outputs)) tape.instrs
        ⟨.ofBundle weight, .start 0 tape.workSize (countsOf inputs)⟩).run.outputs.read 0
        p.index p.nonzero
      = weighted outputs weight (g.partialIn I ρ p.e) := by
  have hfixed : ∀ e ∈ tape.freeSymbols, (ScalarGraph.unit p.e : ScalarId → V) e = 0 := fun e he =>
    if_neg fun h => (ht.free he).2 p hp h.symm
  have hstill : ∀ k, ((freeDual tape ρ).getD k 0).snd = 0 := by
    intro k
    rw [freeDual, List.getD_eq_getElem?_getD, List.getElem?_map]
    cases tape.freeSymbols[k]? <;> rfl
  have hweigh := weigh_pullBack I.differentiates tape (ownDual inputs ρ (ScalarGraph.unit p.e)) (.ofBundle weight)
    hstill (ht.loadsOnce _) ht.storesOnce
  have hinput := (supplies_own inputs ρ hfixed).input
  rw [weigh, weigh, List.sum_toFinset _ (nodup_places inputs),
    List.sum_toFinset _ (nodup_places outputs), List.map_map, List.map_map] at hweigh
  -- of the inputs only `p` moves
  rw [List.sum_map_eq_nsmul_single p, List.count_eq_one_of_mem (ht.distinct.of_map _) hp,
    one_nsmul] at hweigh
  · rw [Function.comp_apply, Grid.read_ofBundle, hinput p hp, snd_dualOf, ScalarGraph.unit,
      if_pos rfl, mul_one] at hweigh
    rw [hweigh, weighted]
    refine congrArg List.sum (List.map_congr_left fun q hq => ?_)
    rw [Function.comp_apply, Grid.read_ofBundle, ← I.dualAlgebra_eq, ht.snd_finish hfixed hq,
      ScalarGraph.partialIn]
  · intro q hqp hq
    have hne : q.e ≠ p.e := fun h => hqp (List.inj_on_of_nodup_map ht.distinct hq hp (by rw [h]))
    rw [Function.comp_apply, Grid.read_ofBundle, hinput q hq, snd_dualOf, ScalarGraph.unit,
      if_neg hne, mul_zero]

/-- **Reverse sweeps of a function** give the derivatives of its weighted outputs in the inputs. -/
theorem yields_reverse_own (ht : Resides g inputs outputs tape) {seeds : List (Bundle ScalarId)}
    {weights : List (Bundle V)}
    (hseeds : List.Forall₂ (Bundle.Related (g.Reads I ρ)) seeds weights) :
    Yields (tape.reverse scalarAlgebra (inputs.map SparseMatrix.values) tape.freeSymbols seeds
        (countsOf inputs) (countsOf outputs)) g fun res h =>
      List.Forall₂ (fun adjoint weight => ∀ p ∈ places inputs,
        h.Reads I ρ ((adjoint.getD p.index []).getD p.nonzero .zero)
          (weighted outputs weight (g.partialIn I ρ p.e))) res.2 weights := by
  -- the sweep does not know which input the derivative is taken in, the run it is compared with does
  have hin (dx : ScalarId → V) := yields_reverse (I := I) (ρ := ρ) tape (countsOf inputs)
    (countsOf outputs) (.map_right (f := fun e => dualOf (ρ e) (dx e))
      (ht.reads_inputs.imp fun _ _ he => he)) ht.freeReads hseeds
  have : Inhabited (ScalarId → V) := ⟨0⟩
  refine (Yields.all hin).imp fun res h _ hh hres => ?_
  refine (forall₂_forall hres).imp fun adjoint weight hrelated p hp => ?_
  rw [← ht.read_pullBack weight hp, ← Grid.getD_toBundle]
  exact (hrelated (ScalarGraph.unit p.e)).getD hh.reads_zero p.index p.nonzero

end Own

end ScalarTape

end Fluxion
