import Fluxion.Proofs.Scalar.Checked
import Fluxion.Proofs.Schedule.Reachability

/-!
# What a scalar tape holds

The instructions of a tape are held against the steps of its program, one by one: a step that
computes a node has the instruction of that node, and a step that stores a root has the store of the
place that the root stands in. What `Schedule.Lists` says of the steps then says which nodes a tape
has instructions for, how often and in which order.

Which slots are read and written is left open here. That an instruction reads the slots of its
operands is what `Schedule.faithful_make` says, and the values of the outputs depend on it; what a
tape holds does not. But all slots are slots of the work array, and all places are places of the
inputs and outputs.

## Main definitions

* `ScalarTape.CarriesOut` — an instruction does what a step says
* `ScalarTape.Contents` — what a tape holds, with its free symbols and its length
* `ScalarTape.InRange` — every slot and place that a tape uses is there

## Main results

* `ScalarTape.Compiled.contents` — tapes hold what their outputs reach
* `ScalarTape.Compiled.inRange` — tapes stay in range
-/

namespace Fluxion

namespace ScalarTape

/-- An instruction does what a step says, in whatever slots. -/
inductive CarriesOut (g : ScalarGraph) (inputs outputs : List (SparseMatrix ScalarId))
    (free : List ScalarId) : Step → ScalarInstr → Prop
  | constant {e : ScalarId} {v : Binary64} (result : Nat) (h : g.node? e = some (.literal v)) :
    CarriesOut g inputs outputs free (.compute e.index) (.constant v result)
  | unary {e : ScalarId} {op : UnaryOp} {a : ScalarId} (slot result : Nat)
    (h : g.node? e = some (.unary op a)) :
    CarriesOut g inputs outputs free (.compute e.index) (.unary op slot result)
  | binary {e : ScalarId} {op : BinaryOp} {a b : ScalarId} (left right result : Nat)
    (h : g.node? e = some (.binary op a b)) :
    CarriesOut g inputs outputs free (.compute e.index) (.binary op left right result)
  /-- A symbol that is an input is loaded from its place. -/
  | input {p : Place} (result : Nat) (h : p ∈ places inputs) :
    CarriesOut g inputs outputs free (.compute p.e.index) (.input p.index p.nonzero result)
  /-- A free symbol is loaded from its place among the free symbols. -/
  | free {e : ScalarId} {k : Nat} (result : Nat) (h : free[k]? = some e) :
    CarriesOut g inputs outputs free (.compute e.index) (.free k result)
  | output {k : Nat} {p : Place} (slot : Nat) (h : (places outputs)[k]? = some p) :
    CarriesOut g inputs outputs free (.store k p.e.index) (.output p.index p.nonzero slot)

/-- What a tape holds that computes outputs from inputs. -/
structure Contents (g : ScalarGraph) (inputs outputs : List (SparseMatrix ScalarId))
    (tape : ScalarTape) : Prop where
  /-- The instructions are those of a program for the expressions in the outputs. -/
  program : ∃ steps, Schedule.Lists g.operandNumbers ((places outputs).map (·.e.index)) steps ∧
    List.Forall₂ (CarriesOut g inputs outputs tape.freeSymbols) steps tape.instrs
  /-- There is one store for each place of the outputs, in order. -/
  stores : tape.instrs.filterMap stores? = (places outputs).map fun p => (p.index, p.nonzero)
  /-- Free symbols are the symbols that outputs reach and that are no inputs. -/
  mem_freeSymbols : ∀ e, e ∈ tape.freeSymbols ↔ g.isSymbol e = true ∧
    (∃ p ∈ places outputs, Postorder.Reaches g.operandNumbers p.e.index e.index) ∧
      ∀ p ∈ places inputs, p.e ≠ e
  nodup_freeSymbols : tape.freeSymbols.Nodup
  /-- They stand in the order in which they are first met in the trees that outputs unfold into. -/
  order_freeSymbols : tape.freeSymbols
    = (((places outputs).flatMap fun p =>
        Postorder.traversal g.operandNumbers p.e.index).eraseDups.map ScalarId.mk).filter
          fun e => g.isSymbol e && decide (∀ p ∈ places inputs, p.e ≠ e)
  /-- All instructions but the stores are counted: as many as the outputs reach nodes. -/
  countNodes : tape.countNodes
    = {n | ∃ p ∈ places outputs, Postorder.Reaches g.operandNumbers p.e.index n}.ncard

variable {g : ScalarGraph} {inputs outputs : List (SparseMatrix ScalarId)} {tape : ScalarTape}

/-- The instruction of a step does what the step says. -/
theorem Compiled.carriesOut_instr (h : Compiled g inputs outputs tape) {s : SlottedStep}
    (hs : s ∈ (scheduleFor g outputs).steps) :
    CarriesOut g inputs outputs tape.freeSymbols s.step
      (instr g (inputPlaces g (places inputs)) (places outputs).toArray tape.freeSymbols s) := by
  rw [instr]
  cases hstep : s.step with
  | store k n =>
    obtain ⟨p, hp, rfl, hget⟩ := h.place_of_store hs hstep
    simp only [hget]
    exact .output _ hp
  | compute n =>
    have hcomputed := mem_computed_of_step hs hstep
    obtain ⟨node, hnode⟩ := h.node?_of_computed hcomputed
    simp only [hnode]
    cases node with
    | literal v => exact .constant _ hnode
    | unary op a => exact .unary _ _ hnode
    | binary op a b => exact .binary _ _ _ hnode
    | symbol serial =>
      cases hplace : inputPlace? (inputPlaces g (places inputs)) ⟨n⟩ with
      | some p =>
        obtain ⟨hp, hpe⟩ := inputPlace?_eq_some hplace
        obtain rfl : p.e.index = n := congrArg ScalarId.index hpe
        exact .input _ hp
      | none =>
        exact .free _ (List.getElem?_idxOf (h.mem_freeSymbols hcomputed hnode hplace))

/-- All but the stores are counted. -/
theorem countP_of_carriesOut {free : List ScalarId} {steps : List Step} {instrs : List ScalarInstr}
    (h : List.Forall₂ (CarriesOut g inputs outputs free) steps instrs) :
    instrs.countP (!·.isOutput) = (steps.filterMap Step.computes?).length := by
  induction h with
  | nil => rfl
  | cons hfirst _ ih =>
    rw [List.countP_cons, ih]
    cases hfirst <;> rfl

/-- A symbol is looked up among the inputs in vain, if it is none of them. -/
theorem Compiled.isNone_inputPlace? (h : Compiled g inputs outputs tape) (e : ScalarId) :
    (inputPlace? (inputPlaces g (places inputs)) e).isNone
      = decide (∀ p ∈ places inputs, p.e ≠ e) := by
  rw [Bool.eq_iff_iff, Option.isNone_iff_eq_none, decide_eq_true_eq]
  constructor
  · rintro hnone p hp rfl
    have hlt := (ScalarGraph.has_of_isSymbol (h.symbols p hp)).index_lt
    rw [inputPlace?_of_mem h.distinct hp hlt] at hnone
    cases hnone
  · intro hno
    cases hplace : inputPlace? (inputPlaces g (places inputs)) e with
    | none => rfl
    | some p =>
      obtain ⟨hp, hpe⟩ := inputPlace?_eq_some hplace
      exact absurd hpe (hno p hp)

/-- **A tape holds what its outputs reach**: for each node that is one instruction, after those of
the operands and no earlier than an output needs it. -/
theorem Compiled.contents (h : Compiled g inputs outputs tape) :
    Contents g inputs outputs tape := by
  have hordered := Schedule.ordered_stepsFor (operandNumbers_lt g) h.roots_lt
  have hlists := Schedule.lists_stepsFor (operandNumbers_lt g) h.roots_lt
  have hsteps := Schedule.steps_make hordered
  have hcarries : List.Forall₂ (CarriesOut g inputs outputs tape.freeSymbols)
      (Schedule.stepsFor g.operandNumbers g.size ((places outputs).map (·.e.index)))
      tape.instrs := by
    rw [h.instrs, ← hsteps, List.forall₂_map_left_iff, List.forall₂_map_right_iff]
    exact List.forall₂_same.mpr fun s hs => h.carriesOut_instr hs
  have hfree : tape.freeSymbols
      = (((places outputs).flatMap fun p =>
          Postorder.traversal g.operandNumbers p.e.index).eraseDups.map ScalarId.mk).filter
            fun e => g.isSymbol e && decide (∀ p ∈ places inputs, p.e ≠ e) := by
    rw [h.free, scheduleFor, Schedule.computed_eq hordered, hlists.order, List.flatMap_map]
    exact List.filter_congr fun e _ => by rw [h.isNone_inputPlace?]
  refine
    { program := ⟨_, hlists, hcarries⟩
      stores := h.stores
      mem_freeSymbols := fun e => ?_
      nodup_freeSymbols := nodup_freeSymbols h
      order_freeSymbols := hfree
      countNodes := ?_ }
  · rw [hfree, List.mem_filter, Bool.and_eq_true, decide_eq_true_eq]
    have hmem : e ∈ ((places outputs).flatMap fun p =>
          Postorder.traversal g.operandNumbers p.e.index).eraseDups.map ScalarId.mk
        ↔ ∃ p ∈ places outputs, Postorder.Reaches g.operandNumbers p.e.index e.index :=
      (List.mem_map_of_injective (a := e.index) fun _ _ => ScalarId.mk.inj).trans
        (Postorder.mem_eraseDups_traversals (operandNumbers_lt g))
    rw [hmem]
    tauto
  · rw [countNodes, countP_of_carriesOut hcarries, hlists.length_computes]
    simp only [List.mem_map, exists_exists_and_eq_and]

/-! ### Ranges -/

/-- The slots that an instruction reads or writes. -/
def slotsOf : ScalarInstr → List Nat
  | .input _ _ result | .constant _ result | .free _ result => [result]
  | .unary _ a result => [a, result]
  | .binary _ a b result => [a, b, result]
  | .output _ _ a => [a]

/-- The place that an instruction loads or stores is there, for so many free symbols and so many
values of each input and output. -/
def Placed (free : Nat) (inCounts outCounts : List Nat) : ScalarInstr → Prop
  | .input i k _ => k < inCounts.getD i 0
  | .free k _ => k < free
  | .output i k _ => k < outCounts.getD i 0
  | _ => True

/-- A tape uses nothing that is not there. -/
structure InRange (tape : ScalarTape) (inCounts outCounts : List Nat) : Prop where
  slots : ∀ instr ∈ tape.instrs, ∀ slot ∈ slotsOf instr, slot < tape.workSize
  places : ∀ instr ∈ tape.instrs, Placed tape.freeSymbols.length inCounts outCounts instr

theorem CarriesOut.placed {free : List ScalarId} {step : Step} {i : ScalarInstr}
    (h : CarriesOut g inputs outputs free step i) :
    Placed free.length (countsOf inputs) (countsOf outputs) i := by
  cases h with
  | constant | unary | binary => trivial
  | input _ hp => exact nonzero_lt_countsOf hp
  | free _ he => exact (List.getElem?_eq_some_iff.mp he).1
  | output _ hp => exact nonzero_lt_countsOf (List.mem_of_getElem? hp)

/-- An instruction uses the slots that its step has been given, and reads as many as the step. -/
theorem forall_slotsOf_instr {P : Nat → Prop} (table : Array (List Place)) (outs : Array Place)
    (free : List ScalarId) {s : SlottedStep}
    (hargument : ∀ k, k < (s.step.reads g.operandNumbers).length → P (s.argument k))
    (hresult : ∀ n, s.step = .compute n → P (s.result.getD 0)) :
    ∀ slot ∈ slotsOf (instr g table outs free s), P slot := by
  rw [instr]
  cases hstep : s.step with
  | store root n =>
    have hread := hargument 0 (by rw [hstep]; exact Nat.one_pos)
    simpa [slotsOf] using hread
  | compute n =>
    have hwritten := hresult n hstep
    have hreads : ∀ node, g.node? ⟨n⟩ = some node →
        (s.step.reads g.operandNumbers).length = node.operands.length := by
      intro node hnode
      rw [hstep, Step.reads, ScalarGraph.operandNumbers, ScalarGraph.operands, hnode,
        List.length_map]
      rfl
    dsimp only
    split
    · simpa [slotsOf] using hwritten
    · rename_i op a hnode
      have hread := hargument 0 (by rw [hreads _ hnode]; exact Nat.one_pos)
      simpa [slotsOf] using ⟨hread, hwritten⟩
    · rename_i op a b hnode
      have hleft := hargument 0 (by rw [hreads _ hnode]; exact Nat.two_pos)
      have hright := hargument 1 (by rw [hreads _ hnode]; exact Nat.one_lt_two)
      simpa [slotsOf] using ⟨hleft, hright, hwritten⟩
    · split <;> simpa [slotsOf] using hwritten

/-- **Tapes stay in range**: in the work array, and in the inputs, the free symbols and the outputs. -/
theorem Compiled.inRange (h : Compiled g inputs outputs tape) :
    tape.InRange (countsOf inputs) (countsOf outputs) where
  slots := by
    rw [h.instrs, h.workSize]
    intro i hi
    obtain ⟨s, hs, rfl⟩ := List.mem_map.mp hi
    refine forall_slotsOf_instr _ _ _ (fun k hk => ?_) fun n hn => ?_
    · exact Schedule.argument_lt (operandNumbers_lt g) h.roots_lt hs hk
    · obtain ⟨slot, hslot, hlt⟩ :=
        Schedule.exists_slot_of_compute (operandNumbers_lt g) h.roots_lt hs hn
      rw [hslot]
      exact hlt
  places := by
    intro i hi
    rw [h.instrs] at hi
    obtain ⟨s, hs, rfl⟩ := List.mem_map.mp hi
    exact (h.carriesOut_instr hs).placed

end ScalarTape

end Fluxion
