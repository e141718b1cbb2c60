import Fluxion.Proofs.Scalar.Compile

/-!
# Checked runs of scalar tapes

A run looks nothing up with care: a slot that has not been written, or a place that is not there,
reads as zero, and a write to a place that is not there is lost. A *checked* run stops at the first
such access. In the beginning all its slots and outputs are missing, and it has a result only if
nothing is missing in the end.

A tape that has been compiled passes every check, whatever it runs over and whatever the arguments
are. So its run reads no slot before it is written, and the values that it stores are those of the
expressions.

## Main definitions

* `ScalarTape.checkedReplay` — outputs of a checked run
* `ScalarTape.reading` — the values that symbols have in a run

## Main results

* `ScalarTape.Compiled.checkedReplay_eq`, `ScalarTape.Compiled.replay_eq` — both kinds of run have
  the values of expressions as outputs
* `ScalarTape.replay_of_compile` — **compilation keeps meaning**
-/

namespace Fluxion

namespace ScalarTape

/-! ### Checked runs -/

section Checked

variable {V : Type}

/-- Work slots and outputs of a checked run. What has not been written is missing. -/
structure CheckedRun (V : Type) where
  slots : Array (Option V)
  outputs : Grid (Option V)

namespace CheckedRun

/-- A run that has done nothing: every slot and output is missing. -/
def start (workSize : Nat) (outputCounts : List Nat) : CheckedRun V :=
  ⟨Array.replicate workSize none, Grid.fill none outputCounts⟩

/-- The value in a slot that has been written. -/
def read? (r : CheckedRun V) (slot : Nat) : Option V := r.slots.getD slot none

/-- Write a slot of the work array. -/
def write? (r : CheckedRun V) (slot : Nat) (v : V) : Option (CheckedRun V) :=
  if slot < r.slots.size then some { r with slots := r.slots.setIfInBounds slot (some v) } else none

/-- Store a value in a place of an output. -/
def store? (r : CheckedRun V) (i k : Nat) (v : V) : Option (CheckedRun V) :=
  if k < r.outputs.width i then some { r with outputs := r.outputs.store i k (some v) } else none

end CheckedRun

/-- Carry out one instruction, unless something is missing. -/
def checkedExec (A : Algebra Id V) (inputs : Bundle V) (free : List V) (r : CheckedRun V) :
    ScalarInstr → Option (CheckedRun V)
  | .input i k result => do r.write? result (← (← inputs[i]?)[k]?)
  | .constant v result => r.write? result (A.constant v)
  | .free k result => do r.write? result (← free[k]?)
  | .unary op a result => do r.write? result (A.unary op (← r.read? a))
  | .binary op a b result => do r.write? result (A.binary op (← r.read? a) (← r.read? b))
  | .output i k a => do r.store? i k (← r.read? a)

/-- The outputs of a checked run, if nothing is missing. -/
def checkedReplay (tape : ScalarTape) (A : Algebra Id V) (inputs : Bundle V) (free : List V)
    (outputCounts : List Nat) : Option (Bundle V) := do
  let done ← tape.instrs.foldlM (checkedExec A inputs free) (.start tape.workSize outputCounts)
  done.outputs.toBundle.mapM fun row => row.mapM id

end Checked

/-! ### Values of symbols -/

section Reading

variable {W : Type}

/-- The value of a symbol in a run: a symbol that is an input is the value in its place, and any other
one has the value that is given for it as a free symbol. -/
def reading (tape : ScalarTape) (inputs : List (SparseMatrix ScalarId)) (z : W)
    (values : Bundle W) (freeValues : List W) (e : ScalarId) : W :=
  ((places inputs).find? fun p => p.e = e).elim (freeValues.getD (tape.freeSymbols.idxOf e) z)
    fun p => (values.getD p.index []).getD p.nonzero z

end Reading

variable {g : ScalarGraph} {inputs outputs : List (SparseMatrix ScalarId)} {tape : ScalarTape}
  {W : Type} {A : Algebra Id W} {z : W} {values : Bundle W} {freeValues : List W}

theorem reading_of_mem (hdistinct : ((places inputs).map fun p => p.e.index).Nodup) {p : Place}
    (hp : p ∈ places inputs) :
    tape.reading inputs z values freeValues p.e
      = (values.getD p.index []).getD p.nonzero z := by
  rw [reading]
  cases hfound : (places inputs).find? fun q => q.e = p.e with
  | none => exact absurd (decide_eq_true rfl) (List.find?_eq_none.mp hfound p hp)
  | some q =>
    have hqp : q.e = p.e := by simpa using List.find?_some hfound
    obtain rfl := List.inj_on_of_nodup_map hdistinct (List.mem_of_find?_eq_some hfound) hp
      (congrArg ScalarId.index hqp)
    rfl

theorem nodup_freeSymbols (h : Compiled g inputs outputs tape) : tape.freeSymbols.Nodup := by
  rw [h.free]
  refine List.Nodup.filter _ (List.Nodup.map ?_
    (Schedule.nodup_computed (operandNumbers_lt g) h.roots_lt))
  exact fun _ _ heq => congrArg ScalarId.index heq

theorem notMem_places_of_free (h : Compiled g inputs outputs tape) {e : ScalarId}
    (he : e ∈ tape.freeSymbols) : ∀ p ∈ places inputs, p.e ≠ e := by
  intro p hp hpe
  rw [h.free, List.mem_filter, Bool.and_eq_true] at he
  have hlt : p.e.index < g.size := (ScalarGraph.has_of_isSymbol (h.symbols p hp)).index_lt
  rw [← hpe, inputPlace?_of_mem h.distinct hp hlt] at he
  simp at he

/-- A run supplies the values that symbols have in it. -/
theorem supplies_reading (h : Compiled g inputs outputs tape) (z : W) (values : Bundle W)
    (freeValues : List W) :
      Supplies tape inputs (tape.reading inputs z values freeValues) z values freeValues where
  input p hp := (reading_of_mem h.distinct hp).symm
  free k e he := by
    have hmem := List.mem_of_getElem? he
    have hnone : (places inputs).find? (fun p => p.e = e) = none :=
      List.find?_eq_none.mpr fun p hp => by simpa using notMem_places_of_free h hmem p hp
    obtain ⟨hk, rfl⟩ := List.getElem?_eq_some_iff.mp he
    rw [reading, hnone, Option.elim_none, (nodup_freeSymbols h).idxOf_getElem k hk]

/-! ### What runs store -/

theorem eq_of_getD {α : Type} {z : α} {a b : Array α} (hsize : a.size = b.size)
    (h : ∀ k, k < a.size → a.getD k z = b.getD k z) : a = b := by
  refine Array.ext hsize fun k hk hk' => ?_
  have hk := h k hk
  rwa [Array.getD_eq_getD_getElem?, Array.getD_eq_getD_getElem?, Array.getElem?_eq_getElem ‹_›,
    Array.getElem?_eq_getElem hk', Option.getD_some, Option.getD_some] at hk

/-- Grids with the same places and the same values in them are equal. -/
theorem grid_ext {a b : Grid W} (hsize : a.size = b.size) (hwidth : ∀ i, a.width i = b.width i)
    (hread : ∀ i k, k < a.width i → a.read z i k = b.read z i k) : a = b :=
  eq_of_getD hsize fun i _ => eq_of_getD (hwidth i) (hread i)

theorem size_foldl_store (ps : List Place) (value : Place → W) (grid : Grid W) :
    (ps.foldl (fun grid p => grid.store p.index p.nonzero (value p)) grid).size = grid.size := by
  induction ps generalizing grid with
  | nil => rfl
  | cons p rest ih => rw [List.foldl_cons, ih, Grid.store, Array.size_modify]

theorem width_foldl_store (ps : List Place) (value : Place → W) (grid : Grid W) (i : Nat) :
    (ps.foldl (fun grid p => grid.store p.index p.nonzero (value p)) grid).width i
      = grid.width i := by
  induction ps generalizing grid with
  | nil => rfl
  | cons p rest ih => rw [List.foldl_cons, ih, Grid.width_store]

/-- Values that are stored in all places make up the matrices. -/
theorem foldl_store_places (ms : List (SparseMatrix ScalarId)) (value : ScalarId → W) (z : W) :
    (places ms).foldl (fun grid p => grid.store p.index p.nonzero (value p.e))
        (.fill z (countsOf ms))
      = Grid.ofBundle (ms.map fun m => m.values.map value) := by
  have hwidth : ∀ i, (Grid.fill z (countsOf ms)).width i
      = (Grid.ofBundle (ms.map fun m => m.values.map value)).width i := by
    intro i
    rw [Grid.width_fill, ← Grid.length_getD_toBundle, Grid.toBundle_ofBundle, countsOf,
      List.getD_eq_getElem?_getD, List.getD_eq_getElem?_getD, List.getElem?_map, List.getElem?_map]
    cases ms[i]? with
    | none => rfl
    | some m => simp [m.length_values]
  refine grid_ext (z := z) ?_ (fun i => ?_) fun i k hk => ?_
  · rw [size_foldl_store]
    simp [Grid.fill, Grid.ofBundle, countsOf]
  · rw [width_foldl_store _ fun p => value p.e, hwidth]
  · rw [width_foldl_store _ fun p => value p.e] at hk
    have hplace : ∃ m e, ms[i]? = some m ∧ m.values[k]? = some e := by
      rw [Grid.width_fill, countsOf, List.getD_eq_getElem?_getD, List.getElem?_map] at hk
      cases hm : ms[i]? with
      | none => simp [hm] at hk
      | some m =>
        rw [hm, Option.map_some, Option.getD_some, ← m.length_values] at hk
        exact ⟨m, _, rfl, List.getElem?_eq_getElem hk⟩
    obtain ⟨m, e, hm, he⟩ := hplace
    have hp : (⟨e, i, k⟩ : Place) ∈ places ms := mem_places.mpr ⟨m, hm, he⟩
    have hstored := @read_foldl_store W z _ (fun p => value p.e) _ _ (nodup_places ms) hk
      (Or.inl hp)
    have hrow : (ms.map fun m => m.values.map value).getD i [] = m.values.map value := by
      rw [List.getD_eq_getElem?_getD, List.getElem?_map, hm]
      rfl
    rw [hstored, Grid.read_ofBundle, hrow, List.getD_eq_getElem?_getD, List.getElem?_map, he]
    rfl

/-- **Replays give the values of expressions.** -/
theorem Compiled.replay_eq {given : ScalarId → W} (h : Compiled g inputs outputs tape)
    (hsupplies : Supplies tape inputs given (A.constant 0.0) values freeValues) :
    Id.run (tape.replay A values freeValues (countsOf outputs))
      = outputs.map fun m => m.values.map (g.evaluate A given) := by
  rw [ScalarTape.replay_eq, outputs_finish h hsupplies, foldl_store_places, Grid.toBundle_ofBundle]

/-! ### Compiled tapes pass the checks -/

/-- Arguments of a run have a value in every place of the inputs, and every free symbol has one. -/
structure Fits (inputs : List (SparseMatrix ScalarId)) (tape : ScalarTape) (values : Bundle W)
    (freeValues : List W) : Prop where
  values : values.map List.length = countsOf inputs
  free : freeValues.length = tape.freeSymbols.length

theorem Fits.getElem?_input (hfits : Fits inputs tape values freeValues) {p : Place}
    (hp : p ∈ places inputs) : ∃ row v, values[p.index]? = some row ∧ row[p.nonzero]? = some v ∧
      v = (values.getD p.index []).getD p.nonzero z := by
  have hlt := nonzero_lt_countsOf hp
  rw [← hfits.values, List.getD_eq_getElem?_getD, List.getElem?_map] at hlt
  cases hrow : values[p.index]? with
  | none => simp [hrow] at hlt
  | some row =>
    rw [hrow, Option.map_some, Option.getD_some] at hlt
    refine ⟨row, row[p.nonzero], rfl, List.getElem?_eq_getElem hlt, ?_⟩
    rw [List.getD_eq_getElem?_getD, List.getD_eq_getElem?_getD, hrow, Option.getD_some,
      List.getElem?_eq_getElem hlt, Option.getD_some]

variable {given : ScalarId → W}

/-- What a checked run holds: values where something has been written. -/
def writtenValue (g : ScalarGraph) (A : Algebra Id W) (given : ScalarId → W) (n : Nat) : Option W :=
  some (valueOf g A given n)

/-- **Instructions pass the checks**, if all slots that they read have been written. -/
theorem Compiled.checkedExec_instr (h : Compiled g inputs outputs tape)
    (hsupplies : Supplies tape inputs given z values freeValues)
    (hfits : Fits inputs tape values freeValues) {s : SlottedStep}
    (hs : s ∈ (scheduleFor g outputs).steps) {r : CheckedRun W}
    (hsize : r.slots.size = tape.workSize)
    (hwidth : ∀ i, r.outputs.width i = (countsOf outputs).getD i 0)
    (hread : s.arguments.map (r.slots.getD · none)
      = (s.step.reads g.operandNumbers).map (writtenValue g A given)) :
    checkedExec A values freeValues r
        (instr g (inputPlaces g (places inputs)) (places outputs).toArray tape.freeSymbols s)
      = some ⟨s.after (writtenValue g A given) r.slots,
        storeStep (places outputs).toArray (writtenValue g A given) r.outputs s.step⟩ := by
  have hargument : ∀ (k n : Nat), (s.step.reads g.operandNumbers)[k]? = some n →
      r.read? (s.argument k) = some (valueOf g A given n) :=
    fun _ _ hn => SlottedStep.getD_argument hread hn
  cases hstep : s.step with
  | store root n =>
    have hvalue := hargument 0 n (by rw [hstep]; rfl)
    obtain ⟨p, hp, -, hplace⟩ := h.place_of_store hs hstep
    have hlt : p.nonzero < r.outputs.width p.index := by
      rw [hwidth]
      exact nonzero_lt_countsOf (List.mem_of_getElem? hp)
    rw [instr, hstep]
    simp only [checkedExec, hvalue, hplace, CheckedRun.store?, SlottedStep.after, hstep, storeStep,
      Option.bind_eq_bind, Option.bind_some, if_pos hlt]
    rfl
  | compute n =>
    obtain ⟨slot, hslot, hslotlt⟩ :=
      Schedule.exists_slot_of_compute (operandNumbers_lt g) h.roots_lt hs hstep
    have hwrite : ∀ v : W, r.write? slot v
        = some ⟨r.slots.setIfInBounds slot (some v), r.outputs⟩ := fun v =>
      if_pos (by rw [hsize, h.workSize]; exact hslotlt)
    have hcomputed := mem_computed_of_step hs hstep
    obtain ⟨node, hnode⟩ := h.node?_of_computed hcomputed
    have hvalue : valueOf g A given n = node.apply A (g.evaluate A given) (given ⟨n⟩) :=
      ScalarGraph.evaluate_of_node? hnode
    rw [hstep, Step.reads, operandNumbers_of_node? hnode] at hargument
    rw [instr, hstep]
    simp only [hnode, SlottedStep.after, hstep, storeStep, hslot, Option.getD_some, writtenValue]
    cases node with
    | literal v => simp only [checkedExec, hwrite, hvalue, ScalarNode.apply]
    | unary op a =>
      have ha := hargument 0 a.index rfl
      have hunary : valueOf g A given n = A.unary op (valueOf g A given a.index) := hvalue
      simp only [checkedExec, ha, hunary, Option.bind_eq_bind, Option.bind_some, hwrite]
    | binary op a b =>
      have ha := hargument 0 a.index rfl
      have hb := hargument 1 b.index rfl
      have hbinary : valueOf g A given n
          = A.binary op (valueOf g A given a.index) (valueOf g A given b.index) := hvalue
      simp only [checkedExec, ha, hb, hbinary, Option.bind_eq_bind, Option.bind_some, hwrite]
    | symbol serial =>
      have hown : valueOf g A given n = given ⟨n⟩ := hvalue
      simp only [hown]
      cases hplace : inputPlace? (inputPlaces g (places inputs)) ⟨n⟩ with
      | some p =>
        obtain ⟨hp, hpe⟩ := inputPlace?_eq_some hplace
        obtain ⟨row, v, hrow, hv, heq⟩ := hfits.getElem?_input (z := z) hp
        rw [hsupplies.input p hp, hpe] at heq
        simp only [checkedExec, hrow, hv, heq, Option.bind_eq_bind, Option.bind_some, hwrite]
      | none =>
        have hfree := h.mem_freeSymbols hcomputed hnode hplace
        have hidx : tape.freeSymbols.idxOf ⟨n⟩ < freeValues.length :=
          hfits.free ▸ List.idxOf_lt_length_of_mem hfree
        have hgiven := hsupplies.free _ _ (List.getElem?_idxOf hfree)
        rw [List.getD_eq_getElem?_getD, List.getElem?_eq_getElem hidx, Option.getD_some] at hgiven
        simp only [checkedExec, List.getElem?_eq_getElem hidx, hgiven, Option.bind_eq_bind,
          Option.bind_some, hwrite]

theorem Compiled.foldlM_checkedExec (h : Compiled g inputs outputs tape)
    (hsupplies : Supplies tape inputs given z values freeValues)
    (hfits : Fits inputs tape values freeValues) {steps : List SlottedStep}
    (hsteps : ∀ s ∈ steps, s ∈ (scheduleFor g outputs).steps) {r : CheckedRun W}
    (hsize : r.slots.size = tape.workSize)
    (hwidth : ∀ i, r.outputs.width i = (countsOf outputs).getD i 0)
    (hfaithful : Schedule.Faithful (Step.reads g.operandNumbers) (writtenValue g A given) none r.slots
      steps) :
    ∃ slots, (steps.map (instr g (inputPlaces g (places inputs)) (places outputs).toArray
        tape.freeSymbols)).foldlM (checkedExec A values freeValues) r
      = some ⟨slots, (steps.map SlottedStep.step).foldl
        (storeStep (places outputs).toArray (writtenValue g A given)) r.outputs⟩ := by
  induction steps generalizing r with
  | nil => exact ⟨r.slots, rfl⟩
  | cons s rest ih =>
    obtain ⟨hread, hrest⟩ := hfaithful
    have hstep := h.checkedExec_instr hsupplies hfits (hsteps s (by simp)) hsize hwidth hread
    have hwidth' : ∀ i, (storeStep (places outputs).toArray (writtenValue g A given) r.outputs
        s.step).width i = (countsOf outputs).getD i 0 := by
      intro i
      cases s.step with
      | compute n => exact hwidth i
      | store root n => exact (Grid.width_store ..).trans (hwidth i)
    obtain ⟨slots, hrun⟩ := @ih (fun s' hs' => hsteps s' (by simp [hs']))
      ⟨s.after (writtenValue g A given) r.slots,
        storeStep (places outputs).toArray (writtenValue g A given) r.outputs s.step⟩
      ((Schedule.size_after ..).trans hsize) hwidth' hrest
    refine ⟨slots, ?_⟩
    rw [List.map_cons, List.foldlM_cons, hstep]
    exact hrun

theorem mapM_some {α β : Type} {f : α → Option β} {f' : α → β} {as : List α}
    (hf : ∀ a ∈ as, f a = some (f' a)) : as.mapM f = some (as.map f') := by
  induction as with
  | nil => rfl
  | cons a rest ih =>
    rw [List.mapM_cons, hf a (by simp), ih fun b hb => hf b (by simp [hb])]
    simp

/-- **A checked run has a result**, and it has the values of expressions. -/
theorem Compiled.checkedReplay_eq (h : Compiled g inputs outputs tape)
    (hsupplies : Supplies tape inputs given z values freeValues)
    (hfits : Fits inputs tape values freeValues) :
    tape.checkedReplay A values freeValues (countsOf outputs)
      = some (outputs.map fun m => m.values.map (g.evaluate A given)) := by
  have hfaithful := Schedule.faithful_make (operandNumbers_lt g) h.roots_lt
    (writtenValue g A given) none
  obtain ⟨slots, hrun⟩ := h.foldlM_checkedExec (A := A) hsupplies hfits (fun _ hs => hs)
    (r := .start tape.workSize (countsOf outputs)) Array.size_replicate
    (fun i => Grid.width_fill none _ i) (by rw [h.workSize]; exact hfaithful)
  have hstored : ((scheduleFor g outputs).steps.map SlottedStep.step).foldl
      (storeStep (places outputs).toArray (writtenValue g A given))
      (CheckedRun.start tape.workSize (countsOf outputs)).outputs
      = Grid.ofBundle (outputs.map fun m => m.values.map fun e => some (g.evaluate A given e)) :=
    (h.foldl_storeStep_places _ _).trans
      (foldl_store_places outputs (fun e => some (g.evaluate A given e)) none)
  have hrows : (outputs.map fun m => m.values.map fun e => some (g.evaluate A given e)).mapM
      (fun row => row.mapM id) = some (outputs.map fun m => m.values.map (g.evaluate A given)) := by
    rw [List.mapM_map]
    refine mapM_some fun m _ => ?_
    rw [Function.comp_apply, List.mapM_map]
    exact mapM_some fun e _ => rfl
  rw [checkedReplay, h.instrs, hrun, hstored]
  simp only [Option.bind_eq_bind, Option.bind_some, Grid.toBundle_ofBundle, hrows]

/-- **Compilation keeps meaning.** Whatever a tape runs over, its outputs are the values that recursion
over the graph gives, and no slot is read before it is written. -/
theorem replay_of_compile (h : compile g inputs outputs = .ok tape) (A : Algebra Id W)
    (hvalues : values.map List.length = countsOf inputs)
    (hfree : freeValues.length = tape.freeSymbols.length) :
    Id.run (tape.replay A values freeValues (countsOf outputs))
        = outputs.map (fun m => m.values.map
            (g.evaluate A (tape.reading inputs (A.constant 0.0) values freeValues))) ∧
      tape.checkedReplay A values freeValues (countsOf outputs)
        = some (outputs.map fun m => m.values.map
            (g.evaluate A (tape.reading inputs (A.constant 0.0) values freeValues))) := by
  have hcompiled := compiled_of_compile h
  have hsupplies := supplies_reading hcompiled (A.constant 0.0) values freeValues
  exact ⟨hcompiled.replay_eq hsupplies, hcompiled.checkedReplay_eq hsupplies ⟨hvalues, hfree⟩⟩

end ScalarTape

/-! ### A tape that reuses slots -/

namespace DampedSine

open ScalarBuilder

/-- Symbols `x` and `y`, the sine of `x`, and its product with `y`. -/
def graph : ScalarGraph :=
  (binary .mul ⟨5⟩ ⟨4⟩).after <| (unary .sin ⟨3⟩).after <|
    (((ScalarGraph.new (.numbered 0)).symbol "x").2.symbol "y").2

/-- The sine is stored before the product is, and once more after that. -/
def outputs : List (SparseMatrix ScalarId) := [.scalar ⟨5⟩, .column [⟨6⟩, ⟨5⟩]]

def tape : ScalarTape where
  instrs := [.input 0 0 0, .unary .sin 0 0, .output 0 0 0, .free 0 1, .binary .mul 0 1 1,
    .output 1 0 1, .output 1 1 0]
  freeSymbols := [⟨4⟩]
  freeNames := ["y"]
  workSize := 2

/-- Over sets of inputs, with the first component for `x` and the second one for `y`, the sine depends
on the first and the product on both. -/
theorem replay_of_compile_dependencies :
    Id.run (tape.replay dependencyAlgebra [[1]] [2] [1, 2]) = [[1], [3, 1]] ∧
      tape.checkedReplay dependencyAlgebra [[1]] [2] [1, 2] = some [[1], [3, 1]] := by
  have h := ScalarTape.replay_of_compile
    (show ScalarTape.compile graph [.scalar ⟨3⟩] outputs = .ok tape from rfl) dependencyAlgebra
    (show [[1]].map List.length = _ from rfl) (show [2].length = _ from rfl)
  have hx : graph.evaluate dependencyAlgebra (tape.reading [.scalar ⟨3⟩] (0 : Nat) [[1]] [2]) ⟨3⟩ = 1 :=
    ScalarGraph.evaluate_of_node? (n := .symbol 0) rfl
  have hy : graph.evaluate dependencyAlgebra (tape.reading [.scalar ⟨3⟩] (0 : Nat) [[1]] [2]) ⟨4⟩ = 2 :=
    ScalarGraph.evaluate_of_node? (n := .symbol 1) rfl
  have hsine : graph.evaluate dependencyAlgebra (tape.reading [.scalar ⟨3⟩] (0 : Nat) [[1]] [2]) ⟨5⟩
      = 1 := (ScalarGraph.evaluate_of_node? (n := .unary .sin ⟨3⟩) rfl).trans hx
  have hproduct : graph.evaluate dependencyAlgebra
      (tape.reading [.scalar ⟨3⟩] (0 : Nat) [[1]] [2]) ⟨6⟩ = 3 := by
    rw [ScalarGraph.evaluate_of_node? (n := .binary .mul ⟨5⟩ ⟨4⟩) rfl, ScalarNode.apply, hsine, hy]
    rfl
  have hvalues : outputs.map (fun m => m.values.map (graph.evaluate dependencyAlgebra
      (tape.reading [.scalar ⟨3⟩] (dependencyAlgebra.constant 0.0) [[1]] [2]))) = [[1], [3, 1]] := by
    change [[graph.evaluate dependencyAlgebra (tape.reading [.scalar ⟨3⟩] (0 : Nat) [[1]] [2]) ⟨5⟩],
      [graph.evaluate dependencyAlgebra (tape.reading [.scalar ⟨3⟩] (0 : Nat) [[1]] [2]) ⟨6⟩,
        graph.evaluate dependencyAlgebra (tape.reading [.scalar ⟨3⟩] (0 : Nat) [[1]] [2]) ⟨5⟩]] = _
    rw [hsine, hproduct]
  rw [hvalues] at h
  exact h

end DampedSine

end Fluxion
