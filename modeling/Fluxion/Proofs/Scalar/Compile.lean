import Fluxion.Proofs.Scalar.Building
import Fluxion.Proofs.Scalar.Pairing
import Fluxion.Proofs.Scalar.Runs
import Fluxion.Proofs.Schedule.Faithful

/-!
# Tapes compute what their expressions mean

A tape that was compiled from a graph computes, over any algebra without effects, the values that
recursion over the graph gives. The schedule is faithful, so every instruction finds the values of
its operands; what is left to show is that instructions do what nodes say, and that every output is
stored in its place.

The same look at the instructions shows that no place of an input is loaded twice and none of an
output is stored twice, which is what reverse sweeps rely on.

## Main definitions

* `ScalarTape.Compiled` — what a tape that was compiled is made of
* `ScalarTape.Supplies` — the inputs and free symbols of a run have given values

## Main results

* `ScalarTape.compiled_of_compile` — what compilation makes
* `ScalarTape.read_finish` — **outputs are values of expressions**
* `ScalarTape.Compiled.loads`, `ScalarTape.Compiled.stores` — no place is touched twice
-/

namespace Fluxion

namespace ScalarTape

/-! ### Places -/

theorem mem_places {ms : List (SparseMatrix ScalarId)} {p : Place} :
    p ∈ places ms ↔ ∃ m, ms[p.index]? = some m ∧ m.values[p.nonzero]? = some p.e := by
  obtain ⟨e, i, k⟩ := p
  simp only [places, List.mem_flatMap, List.mem_map, Prod.exists, List.mem_zipIdx_iff_getElem?,
    Place.mk.injEq]
  constructor
  · rintro ⟨m, j, hm, e', l, he, rfl, rfl, rfl⟩
    exact ⟨m, hm, he⟩
  · rintro ⟨m, hm, he⟩
    exact ⟨m, i, hm, e, k, he, rfl, rfl, rfl⟩

theorem pairwise_snd_zipIdx {α : Type} (l : List α) (n : Nat) :
    (l.zipIdx n).Pairwise fun p q => p.2 ≠ q.2 := by
  rw [← List.pairwise_map (f := Prod.snd) (R := (· ≠ ·)), List.zipIdx_map_snd]
  exact List.nodup_range'

/-- No two places are the same. -/
theorem nodup_places (ms : List (SparseMatrix ScalarId)) :
    ((places ms).map fun p => (p.index, p.nonzero)).Nodup := by
  rw [places, List.map_flatMap, List.nodup_flatMap]
  constructor
  · rintro ⟨m, i⟩ -
    rw [List.map_map]
    refine List.Pairwise.map _ (fun p q hpq h => hpq (Prod.ext_iff.mp h).2)
      (pairwise_snd_zipIdx m.values 0)
  · refine (pairwise_snd_zipIdx ms 0).imp ?_
    rintro ⟨m, i⟩ ⟨m', j⟩ hij
    rw [Function.onFun, List.disjoint_left]
    intro p hp hp'
    simp only [List.map_map, List.mem_map] at hp hp'
    obtain ⟨_, -, rfl⟩ := hp
    obtain ⟨_, -, heq⟩ := hp'
    exact hij (Prod.ext_iff.mp heq).1.symm

/-! ### What compilation makes -/

theorem checkInputs_eq_ok {g : ScalarGraph} {seen : NumberSet} {ps : List Place}
    (h : checkInputs g seen ps = .ok ()) :
    (∀ p ∈ ps, g.isSymbol p.e = true ∧ seen.contains p.e.index = false) ∧
      (ps.map fun p => p.e.index).Nodup := by
  induction ps generalizing seen with
  | nil => exact ⟨by simp, List.nodup_nil⟩
  | cons p rest ih =>
    rw [checkInputs] at h
    split at h
    · cases h
    · rename_i n hn
      split at h
      · cases h
      · rename_i hsymbol
        split at h
        · cases h
        · rename_i hseen
          obtain ⟨hrest, hnodup⟩ := ih h
          have hfresh : ∀ q ∈ rest, seen.contains q.e.index = false ∧ q.e.index ≠ p.e.index := by
            intro q hq
            have := (hrest q hq).2
            rw [NumberSet.contains_insert, Bool.or_eq_false_iff] at this
            exact ⟨this.1, by simpa using this.2⟩
          refine ⟨?_, List.nodup_cons.mpr ⟨?_, hnodup⟩⟩
          · intro q hq
            rcases List.mem_cons.mp hq with rfl | hq
            · exact ⟨by simpa [ScalarGraph.isSymbol, hn] using hsymbol, by simpa using hseen⟩
            · exact ⟨(hrest q hq).1, (hfresh q hq).1⟩
          · intro hmem
            obtain ⟨q, hq, heq⟩ := List.mem_map.mp hmem
            exact (hfresh q hq).2 heq

/-- The program whose steps the instructions carry out. -/
def scheduleFor (g : ScalarGraph) (outputs : List (SparseMatrix ScalarId)) : Schedule :=
  Schedule.make g.operandNumbers g.size ((places outputs).map (·.e.index))

/-- What a tape is made of that computes outputs from inputs, with the graph that they are
expressions of. -/
structure Compiled (g : ScalarGraph) (inputs outputs : List (SparseMatrix ScalarId))
    (tape : ScalarTape) : Prop where
  symbols : ∀ p ∈ places inputs, g.isSymbol p.e = true
  distinct : ((places inputs).map fun p => p.e.index).Nodup
  known : ∀ p ∈ places outputs, g.Has p.e
  instrs : tape.instrs = (scheduleFor g outputs).steps.map
    (instr g (inputPlaces g (places inputs)) (places outputs).toArray tape.freeSymbols)
  free : tape.freeSymbols = ((scheduleFor g outputs).computed.map ScalarId.mk).filter fun e =>
    g.isSymbol e && (inputPlace? (inputPlaces g (places inputs)) e).isNone
  workSize : tape.workSize = (scheduleFor g outputs).workSize

theorem compiled_of_compile {g : ScalarGraph} {inputs outputs : List (SparseMatrix ScalarId)}
    {tape : ScalarTape} (h : compile g inputs outputs = .ok tape) :
    Compiled g inputs outputs tape := by
  rw [compile] at h
  simp only at h
  split at h
  · cases h
  · rename_i hcheck
    split at h
    · cases h
    · rename_i hknown
      obtain ⟨hsymbols, hdistinct⟩ := checkInputs_eq_ok hcheck
      cases h
      refine ⟨fun p hp => (hsymbols p hp).1, hdistinct, fun p hp => ?_, rfl, rfl, rfl⟩
      exact ScalarGraph.has_of_unknown? hknown (List.mem_map_of_mem hp)

variable {g : ScalarGraph} {inputs outputs : List (SparseMatrix ScalarId)} {tape : ScalarTape}

theorem operandNumbers_lt (g : ScalarGraph) : ∀ n, ∀ a ∈ g.operandNumbers n, a < n := by
  intro n a ha
  obtain ⟨b, hb, rfl⟩ := List.mem_map.mp ha
  rw [ScalarGraph.operands] at hb
  cases hn : g.node? ⟨n⟩ with
  | none => simp [hn] at hb
  | some node =>
    rw [hn] at hb
    exact ScalarGraph.index_lt_of_mem_operands hn hb

theorem Compiled.roots_lt (h : Compiled g inputs outputs tape) :
    ∀ r ∈ (places outputs).map (·.e.index), r < g.size := by
  intro r hr
  obtain ⟨p, hp, rfl⟩ := List.mem_map.mp hr
  exact (h.known p hp).index_lt

theorem inputPlace?_eq_some {ps : List Place} {e : ScalarId} {p : Place}
    (h : inputPlace? (inputPlaces g ps) e = some p) : p ∈ ps ∧ p.e = e := by
  rw [inputPlace?, inputPlaces, Array.getD_eq_getD_getElem?, getElem?_buckets] at h
  split at h
  · obtain ⟨entry, hentry, hp⟩ := List.mem_filterMap.mp (List.mem_of_head? h)
    obtain ⟨q, hq, rfl⟩ := List.mem_map.mp hentry
    simp only [Option.ite_none_right_eq_some, Option.some.injEq] at hp
    obtain ⟨hindex, rfl⟩ := hp
    exact ⟨hq, congrArg ScalarId.mk hindex⟩
  · simp at h

theorem inputPlace?_of_mem {ps : List Place} (hdistinct : (ps.map fun p => p.e.index).Nodup)
    {p : Place} (hp : p ∈ ps) (hlt : p.e.index < g.size) :
    inputPlace? (inputPlaces g ps) p.e = some p := by
  cases hfound : inputPlace? (inputPlaces g ps) p.e with
  | some q =>
    obtain ⟨hq, hqe⟩ := inputPlace?_eq_some hfound
    rw [List.inj_on_of_nodup_map hdistinct hq hp (congrArg ScalarId.index hqe)]
  | none =>
    rw [inputPlace?, inputPlaces, Array.getD_eq_getD_getElem?, getElem?_buckets, if_pos hlt,
      Option.getD_some, List.head?_eq_none_iff, List.filterMap_eq_nil_iff] at hfound
    have := hfound (p.e.index, p) (List.mem_map_of_mem hp)
    simp at this

/-- What is computed is in the graph. -/
theorem Compiled.node?_of_computed (h : Compiled g inputs outputs tape) {n : Nat}
    (hn : n ∈ (scheduleFor g outputs).computed) : ∃ node, g.node? ⟨n⟩ = some node :=
  ScalarGraph.has_of_index_lt
    (Schedule.lt_of_mem_computed (operandNumbers_lt g) (Nat.le_refl _) h.roots_lt hn)

theorem mem_computed_of_step {s : SlottedStep} (hs : s ∈ (scheduleFor g outputs).steps) {n : Nat}
    (hstep : s.step = .compute n) : n ∈ (scheduleFor g outputs).computed :=
  List.mem_filterMap.mpr ⟨s, hs, by rw [hstep]; rfl⟩

theorem operandNumbers_of_node? {n : Nat} {node : ScalarNode} (hnode : g.node? ⟨n⟩ = some node) :
    g.operandNumbers n = node.operands.map ScalarId.index := by
  rw [ScalarGraph.operandNumbers, ScalarGraph.operands, hnode]
  rfl

/-- A symbol that is computed is an input or a free symbol. -/
theorem Compiled.mem_freeSymbols (h : Compiled g inputs outputs tape) {n serial : Nat}
    (hn : n ∈ (scheduleFor g outputs).computed) (hnode : g.node? ⟨n⟩ = some (.symbol serial))
    (hplace : inputPlace? (inputPlaces g (places inputs)) ⟨n⟩ = none) : ⟨n⟩ ∈ tape.freeSymbols := by
  rw [h.free, List.mem_filter]
  refine ⟨List.mem_map_of_mem hn, ?_⟩
  simp [ScalarGraph.isSymbol, hnode, ScalarNode.isSymbol, hplace]

/-- A step that stores a root stores into the place of this root. -/
theorem Compiled.place_of_store (h : Compiled g inputs outputs tape) {s : SlottedStep}
    (hs : s ∈ (scheduleFor g outputs).steps) {root n : Nat} (hstep : s.step = .store root n) :
    ∃ p, (places outputs)[root]? = some p ∧ p.e.index = n ∧
      (places outputs).toArray.getD root ⟨⟨n⟩, 0, 0⟩ = p := by
  have hroot := Schedule.getElem?_of_store (operandNumbers_lt g) h.roots_lt hs hstep
  rw [List.getElem?_map] at hroot
  obtain ⟨p, hp, hpn⟩ := Option.map_eq_some_iff.mp hroot
  refine ⟨p, hp, hpn, ?_⟩
  rw [Array.getD_eq_getD_getElem?, List.getElem?_toArray, hp, Option.getD_some]

/-! ### Runs of compiled tapes -/

section Run

variable {W : Type} {A : Algebra Id W} {given : ScalarId → W} {zero : W} {values : Bundle W}
  {freeValues : List W}

/-- The inputs and the free symbols have the values `given`. -/
structure Supplies (tape : ScalarTape) (inputs : List (SparseMatrix ScalarId))
    (given : ScalarId → W) (zero : W) (values : Bundle W) (freeValues : List W) : Prop where
  input : ∀ p ∈ places inputs, (values.getD p.index []).getD p.nonzero zero = given p.e
  free : ∀ k e, tape.freeSymbols[k]? = some e → freeValues.getD k zero = given e

/-- What a step does to the outputs. -/
def storeStep (ps : Array Place) (value : Nat → W) (grid : Grid W) : Step → Grid W
  | .compute _ => grid
  | .store root n => grid.store (ps.getD root ⟨⟨n⟩, 0, 0⟩).index (ps.getD root ⟨⟨n⟩, 0, 0⟩).nonzero
    (value n)

/-- The value of a node by number. -/
def valueOf (g : ScalarGraph) (A : Algebra Id W) (given : ScalarId → W) (n : Nat) : W :=
  g.evaluate A given ⟨n⟩

/-- **Instructions do what steps say**, if they find the values that steps read. -/
theorem execute_instr (h : Compiled g inputs outputs tape)
    (hsupplies : Supplies tape inputs given zero values freeValues) {s : SlottedStep}
    (hs : s ∈ (scheduleFor g outputs).steps) {r : Run W}
    (hread : s.arguments.map (r.slots.getD · zero)
      = (s.step.reads g.operandNumbers).map (valueOf g A given)) :
    execute A zero (.ofBundle values) freeValues.toArray r
        (instr g (inputPlaces g (places inputs)) (places outputs).toArray tape.freeSymbols s)
      = ⟨s.after (valueOf g A given) r.slots,
        storeStep (places outputs).toArray (valueOf g A given) r.outputs s.step⟩ := by
  have hargument : ∀ (k n : Nat), (s.step.reads g.operandNumbers)[k]? = some n →
      r.read zero (s.argument k) = valueOf g A given n :=
    fun _ _ hn => SlottedStep.getD_argument hread hn
  cases hstep : s.step with
  | store root n =>
    rw [instr, hstep]
    have hvalue := hargument 0 n (by rw [hstep]; rfl)
    simp only [execute, Run.store, SlottedStep.after, hstep, storeStep, hvalue]
  | compute n =>
    have hcomputed := mem_computed_of_step hs hstep
    obtain ⟨node, hnode⟩ := h.node?_of_computed hcomputed
    have hvalue : valueOf g A given n = node.apply A (g.evaluate A given) (given ⟨n⟩) :=
      ScalarGraph.evaluate_of_node? hnode
    rw [hstep, Step.reads, operandNumbers_of_node? hnode] at hargument
    rw [instr, hstep]
    simp only [hnode, SlottedStep.after, hstep, storeStep]
    cases node with
    | literal v => simp [execute, Run.write, hvalue, ScalarNode.apply]
    | unary op a =>
      have ha := hargument 0 a.index rfl
      have hunary : valueOf g A given n = A.unary op (valueOf g A given a.index) := hvalue
      simp only [execute, Run.write, ha, hunary]
    | binary op a b =>
      have ha := hargument 0 a.index rfl
      have hb := hargument 1 b.index rfl
      have hbinary : valueOf g A given n
          = A.binary op (valueOf g A given a.index) (valueOf g A given b.index) := hvalue
      simp only [execute, Run.write, ha, hb, hbinary]
    | symbol serial =>
      have hown : valueOf g A given n = given ⟨n⟩ := hvalue
      simp only [hown]
      cases hplace : inputPlace? (inputPlaces g (places inputs)) ⟨n⟩ with
      | some p =>
        obtain ⟨hp, hpe⟩ := inputPlace?_eq_some hplace
        simp only [execute, Run.write, Grid.read_ofBundle, hsupplies.input p hp, hpe]
      | none =>
        have hfree := hsupplies.free _ _
          (List.getElem?_idxOf (h.mem_freeSymbols hcomputed hnode hplace))
        rw [List.getD_eq_getElem?_getD] at hfree
        simp only [execute, Run.write, List.getElem?_toArray, Array.getD_eq_getD_getElem?, hfree]

theorem outputs_foldl (h : Compiled g inputs outputs tape)
    (hsupplies : Supplies tape inputs given zero values freeValues) {steps : List SlottedStep}
    (hsteps : ∀ s ∈ steps, s ∈ (scheduleFor g outputs).steps) {r : Run W}
    (hfaithful : Schedule.Faithful (Step.reads g.operandNumbers) (valueOf g A given) zero r.slots
      steps) :
    ((steps.map (instr g (inputPlaces g (places inputs)) (places outputs).toArray
        tape.freeSymbols)).foldl
      (execute A zero (.ofBundle values) freeValues.toArray) r).outputs
      = (steps.map SlottedStep.step).foldl
        (storeStep (places outputs).toArray (valueOf g A given)) r.outputs := by
  induction steps generalizing r with
  | nil => rfl
  | cons s rest ih =>
    obtain ⟨hread, hrest⟩ := hfaithful
    rw [List.map_cons, List.foldl_cons, execute_instr h hsupplies (hsteps s (by simp)) hread]
    exact ih (fun s' hs' => hsteps s' (by simp [hs'])) hrest

/-- Only the stores of a list of steps matter for the outputs. -/
theorem foldl_storeStep (ps : Array Place) (value : Nat → W) (steps : List Step) (grid : Grid W) :
    steps.foldl (storeStep ps value) grid
      = (steps.filterMap Step.stores?).foldl
        (fun grid (root, n) => storeStep ps value grid (.store root n)) grid := by
  induction steps generalizing grid with
  | nil => rfl
  | cons s rest ih =>
    cases s with
    | compute n => exact ih grid
    | store root n => exact ih _

/-- A program stores its outputs one after another. -/
theorem Compiled.foldl_storeStep_places (h : Compiled g inputs outputs tape) (value : Nat → W)
    (grid : Grid W) :
    ((scheduleFor g outputs).steps.map SlottedStep.step).foldl
        (storeStep (places outputs).toArray value) grid
      = (places outputs).foldl
        (fun grid p => grid.store p.index p.nonzero (value p.e.index)) grid := by
  have hsteps := Schedule.steps_make (Schedule.ordered_stepsFor (operandNumbers_lt g) h.roots_lt)
  rw [scheduleFor, hsteps, foldl_storeStep, Schedule.stores_stepsFor, List.foldl_map]
  -- the store of number `k` is that of place `k`
  have hplaces : ∀ (ps : List Place) (k : Nat) (grid : Grid W),
      (∀ j p, ps[j]? = some p → (places outputs)[k + j]? = some p) →
      (((ps.map (·.e.index)).zipIdx k).foldl (fun grid entry =>
        storeStep (places outputs).toArray value grid (.store entry.2 entry.1)) grid)
        = ps.foldl (fun grid p => grid.store p.index p.nonzero (value p.e.index)) grid := by
    intro ps
    induction ps with
    | nil => intros; rfl
    | cons p rest ih =>
      intro k grid hget
      have hk : (places outputs)[k]? = some p := hget 0 p rfl
      have hp : (places outputs).toArray.getD k ⟨⟨p.e.index⟩, 0, 0⟩ = p := by
        rw [Array.getD_eq_getD_getElem?, List.getElem?_toArray, hk, Option.getD_some]
      rw [List.map_cons, List.zipIdx_cons, List.foldl_cons, List.foldl_cons, ih (k + 1)]
      · simp only [storeStep, hp]
      · intro j q hq
        rw [Nat.add_assoc, Nat.add_comm 1 j]
        exact hget (j + 1) q hq
  exact hplaces (places outputs) 0 _ fun j p hp => by rwa [Nat.zero_add]

/-- The outputs of a run are stored one after another. -/
theorem outputs_finish (h : Compiled g inputs outputs tape)
    (hsupplies : Supplies tape inputs given (A.constant 0.0) values freeValues)
    (counts : List Nat) :
    (tape.finish A values freeValues counts).outputs
      = (places outputs).foldl (fun grid p => grid.store p.index p.nonzero (g.evaluate A given p.e))
        (.fill (A.constant 0.0) counts) := by
  have hfaithful := Schedule.faithful_make (operandNumbers_lt g) h.roots_lt (valueOf g A given)
    (A.constant 0.0)
  have hrun := outputs_foldl h hsupplies (fun _ hs => hs)
    (r := .start (A.constant 0.0) tape.workSize counts) (by rw [h.workSize]; exact hfaithful)
  rw [finish, h.instrs, hrun, h.foldl_storeStep_places]
  rfl

/-- What is stored in a place stays there if no other value is stored in it. -/
theorem read_foldl_store {ps : List Place} (value : Place → W) {grid : Grid W} {p : Place}
    (hnodup : (ps.map fun p => (p.index, p.nonzero)).Nodup)
    (hwidth : p.nonzero < grid.width p.index)
    (h : p ∈ ps ∨ grid.read zero p.index p.nonzero = value p ∧
      (p.index, p.nonzero) ∉ ps.map fun p => (p.index, p.nonzero)) :
    (ps.foldl (fun grid p => grid.store p.index p.nonzero (value p)) grid).read zero
      p.index p.nonzero = value p := by
  induction ps generalizing grid with
  | nil =>
    rcases h with h | h
    · cases h
    · exact h.1
  | cons q rest ih =>
    rw [List.map_cons, List.nodup_cons] at hnodup
    rw [List.foldl_cons]
    refine ih hnodup.2 (by rwa [Grid.width_store]) ?_
    rw [List.mem_cons] at h
    rcases h with (rfl | h) | ⟨hread, hother⟩
    · refine Or.inr ⟨?_, hnodup.1⟩
      rw [Grid.read_store, if_pos ⟨⟨rfl, rfl⟩, hwidth⟩]
    · exact Or.inl h
    · rw [List.map_cons, List.mem_cons, not_or] at hother
      refine Or.inr ⟨?_, hother.2⟩
      rw [Grid.read_store, if_neg, hread]
      rintro ⟨⟨hi, hk⟩, -⟩
      exact hother.1 (Prod.ext hi.symm hk.symm)

/-- The number of values of each matrix. -/
def countsOf (ms : List (SparseMatrix ScalarId)) : List Nat := ms.map fun m => m.pattern.nnz

theorem map_nnz_pattern (ms : List (SparseMatrix ScalarId)) :
    (ms.map SparseMatrix.pattern).map Pattern.nnz = countsOf ms :=
  List.map_map

theorem nonzero_lt_countsOf {ms : List (SparseMatrix ScalarId)} {p : Place} (hp : p ∈ places ms) :
    p.nonzero < (countsOf ms).getD p.index 0 := by
  obtain ⟨m, hm, he⟩ := mem_places.mp hp
  rw [countsOf, List.getD_eq_getElem?_getD, List.getElem?_map, hm, Option.map_some,
    Option.getD_some, ← m.length_values]
  exact (List.getElem?_eq_some_iff.mp he).1

/-- **Outputs are values of expressions**, over any algebra without effects. -/
theorem read_finish (h : Compiled g inputs outputs tape)
    (hsupplies : Supplies tape inputs given (A.constant 0.0) values freeValues) {p : Place}
    (hp : p ∈ places outputs) :
    (tape.finish A values freeValues (countsOf outputs)).outputs.read (A.constant 0.0)
      p.index p.nonzero = g.evaluate A given p.e := by
  rw [outputs_finish h hsupplies]
  refine read_foldl_store (fun p => g.evaluate A given p.e) (nodup_places outputs) ?_
    (Or.inl hp)
  rw [Grid.width_fill]
  exact nonzero_lt_countsOf hp

end Run

/-! ### No place is touched twice -/

/-- The place that is loaded for a node. -/
def loadOf (g : ScalarGraph) (ps : List Place) (n : Nat) : Option (Nat × Nat) :=
  match g.node? ⟨n⟩ with
  | some (.literal _) | some (.unary ..) | some (.binary ..) => none
  | _ => (inputPlace? (inputPlaces g ps) ⟨n⟩).map fun p => (p.index, p.nonzero)

theorem loads_instr (g : ScalarGraph) (ps : List Place) (outs : Array Place) (free : List ScalarId)
    (s : SlottedStep) :
    loads? (instr g (inputPlaces g ps) outs free s) = s.step.computes?.bind (loadOf g ps) := by
  rw [instr]
  cases s.step with
  | store root n => rfl
  | compute n =>
    change _ = loadOf g ps n
    cases hn : g.node? ⟨n⟩ with
    | none =>
      simp only [loadOf, hn]
      cases inputPlace? (inputPlaces g ps) ⟨n⟩ <;> rfl
    | some node =>
      cases node with
      | literal v => simp only [loadOf, hn]; rfl
      | unary op a => simp only [loadOf, hn]; rfl
      | binary op a b => simp only [loadOf, hn]; rfl
      | symbol serial =>
        simp only [loadOf, hn]
        cases inputPlace? (inputPlaces g ps) ⟨n⟩ <;> rfl

theorem exists_of_loadOf {ps : List Place} {n : Nat} {q : Nat × Nat}
    (h : loadOf g ps n = some q) : ∃ p ∈ ps, p.e = ⟨n⟩ ∧ (p.index, p.nonzero) = q := by
  rw [loadOf] at h
  split at h
  · cases h
  · cases h
  · cases h
  · obtain ⟨p, hp, hpq⟩ := Option.map_eq_some_iff.mp h
    obtain ⟨hmem, hpe⟩ := inputPlace?_eq_some hp
    exact ⟨p, hmem, hpe, hpq⟩

/-- Loads are from different places of the inputs. -/
theorem Compiled.loads (h : Compiled g inputs outputs tape) :
    (tape.instrs.filterMap loads?).Nodup ∧
      ∀ q ∈ tape.instrs.filterMap loads?, ∃ p ∈ places inputs, (p.index, p.nonzero) = q := by
  have hloads : tape.instrs.filterMap loads?
      = (scheduleFor g outputs).computed.filterMap (loadOf g (places inputs)) := by
    rw [h.instrs, List.filterMap_map, Schedule.computed, List.filterMap_filterMap]
    exact List.filterMap_congr fun s _ => loads_instr ..
  rw [hloads]
  constructor
  · refine List.Nodup.filterMap ?_ (Schedule.nodup_computed (operandNumbers_lt g) h.roots_lt)
    intro n n' q hq hq'
    obtain ⟨p, hp, hpe, hpq⟩ := exists_of_loadOf hq
    obtain ⟨p', hp', hpe', hpq'⟩ := exists_of_loadOf hq'
    have hsame := List.inj_on_of_nodup_map (nodup_places inputs) hp hp' (hpq.trans hpq'.symm)
    rw [hsame, hpe'] at hpe
    exact (congrArg ScalarId.index hpe).symm
  · intro q hq
    obtain ⟨n, -, hn⟩ := List.mem_filterMap.mp hq
    obtain ⟨p, hp, -, hpq⟩ := exists_of_loadOf hn
    exact ⟨p, hp, hpq⟩

theorem stores_instr (g : ScalarGraph) (table : Array (List Place)) (outs : Array Place)
    (free : List ScalarId) (s : SlottedStep) :
    stores? (instr g table outs free s) = s.step.stores?.map fun (root, n) =>
      ((outs.getD root ⟨⟨n⟩, 0, 0⟩).index, (outs.getD root ⟨⟨n⟩, 0, 0⟩).nonzero) := by
  rw [instr]
  cases s.step with
  | store root n => rfl
  | compute n =>
    -- whatever the node is, its instruction stores nothing
    simp only [Step.stores?, Option.map_none]
    split
    · rfl
    · rfl
    · rfl
    · split <;> rfl

/-- Stores are into the places of the outputs, in order. -/
theorem Compiled.stores (h : Compiled g inputs outputs tape) :
    tape.instrs.filterMap stores? = (places outputs).map fun p => (p.index, p.nonzero) := by
  have hsteps := Schedule.steps_make (Schedule.ordered_stepsFor (operandNumbers_lt g) h.roots_lt)
  have hstores : tape.instrs.filterMap stores?
      = ((scheduleFor g outputs).steps.map SlottedStep.step).filterMap fun s =>
        s.stores?.map fun (root, n) =>
          (((places outputs).toArray.getD root ⟨⟨n⟩, 0, 0⟩).index,
            ((places outputs).toArray.getD root ⟨⟨n⟩, 0, 0⟩).nonzero) := by
    rw [h.instrs, List.filterMap_map, List.filterMap_map]
    exact List.filterMap_congr fun s _ => stores_instr ..
  rw [hstores, scheduleFor, hsteps, ← List.map_filterMap, Schedule.stores_stepsFor, List.map_map]
  refine List.ext_getElem? fun k => ?_
  simp only [List.getElem?_map, List.getElem?_zipIdx, Option.map_map]
  cases hk : (places outputs)[k]? with
  | none => rfl
  | some p => simp [Array.getD_eq_getD_getElem?, hk]

end ScalarTape

end Fluxion
