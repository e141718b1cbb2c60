import Fluxion.Proofs.Matrix.Compile
import Fluxion.Sweep.Matrix

/-!
# The order of a matrix tape

Sweeps go over the instructions of a tape and look at the nodes of their expressions in a graph. What
they rely on is the order: every expression is computed once, after its operands, and an output is
stored when its expression has been computed. Nothing is said about slots, which sweeps do not use.

## Main definitions

* `MatrixTape.Carries` — how an instruction and the node of its expression belong together
* `MatrixTape.Ordered` — operands come first, and nothing is computed twice

## Main results

* `MatrixTape.Resides.ordered` — **instructions are in order**, in every graph that has the nodes
* `MatrixTape.Resides.stores` — outputs are stored one after another
-/

namespace Fluxion

/-- An operation that a sweep has to look at: no load, no store and no constant. -/
def MatrixOp.isOperation : MatrixOp → Bool
  | input _ | output _ | constant _ | free _ => false
  | _ => true

/-- The output that an instruction stores, with its expression. -/
def MatrixInstr.stores? (i : MatrixInstr) : Option (Nat × MatrixId) :=
  match i.op with
  | .output o => some (o, i.node)
  | _ => none

namespace MatrixTape

/-- An instruction that computes an expression, and the node of the expression: inputs and free symbols
are symbols, constants are constants, and every other node takes an operation. -/
inductive Carries (inputs : List MatrixId) (e : MatrixId) : MatrixOp → MatrixNode → Prop
  | input {serial p i} : inputs.idxOf? e = some i → Carries inputs e (.input i) (.symbol serial p)
  | free {serial p k} : inputs.idxOf? e = none → Carries inputs e (.free k) (.symbol serial p)
  | constant (m : SparseMatrix Binary64) : Carries inputs e (.constant m.values) (.constant m)
  | operation {op n} : op.isOperation = true → n.isSymbol = false → Carries inputs e op n

/-- After the expressions `done`, instructions compute none twice and each one after its operands, and
they store outputs that have been computed. -/
inductive Ordered (g : MatrixGraph) (inputs outputs : List MatrixId) :
    List MatrixId → List MatrixInstr → Prop
  | nil (done) : Ordered g inputs outputs done []
  | store {done i rest o} : i.op = .output o → outputs[o]? = some i.node → i.node ∈ done →
      Ordered g inputs outputs done rest → Ordered g inputs outputs done (i :: rest)
  | compute {done i rest n} : g.node? i.node = some n → Carries inputs i.node i.op n →
      i.node ∉ done → n.valueOperands ⊆ done →
      Ordered g inputs outputs (done ++ [i.node]) rest → Ordered g inputs outputs done (i :: rest)

variable {g h origin : MatrixGraph} {inputs outputs : List MatrixId} {tape : MatrixTape}

theorem Ordered.grow {done : List MatrixId} {instrs : List MatrixInstr}
    (ho : Ordered g inputs outputs done instrs) (hgrow : g.Grows h) :
    Ordered h inputs outputs done instrs := by
  induction ho with
  | nil done => exact .nil done
  | store hop hout hdone _ ih => exact .store hop hout hdone ih
  | compute hn hcarries hnew hoperands _ ih =>
    exact .compute (hgrow.node? hn) hcarries hnew hoperands ih

theorem carries_opOf {e : MatrixId} {n : MatrixNode} (hn : g.node? e = some n)
    (free : List MatrixId) : Carries inputs e (opOf g inputs free e) n := by
  rw [opOf, hn]
  cases n with
  | symbol serial p =>
    dsimp only
    split
    · exact .input ‹_›
    · exact .free ‹_›
  | constant m => exact .constant m
  | _ => exact .operation rfl rfl

theorem instr_of_compute {s : SlottedStep} {n : Nat} (hs : s.step = .compute n)
    (g : MatrixGraph) (inputs free : List MatrixId) :
    (instr g inputs free s).op = opOf g inputs free ⟨n⟩ ∧ (instr g inputs free s).node = ⟨n⟩ := by
  rw [instr, hs]
  exact ⟨rfl, rfl⟩

theorem instr_of_store {s : SlottedStep} {root n : Nat} (hs : s.step = .store root n)
    (g : MatrixGraph) (inputs free : List MatrixId) :
    (instr g inputs free s).op = .output root ∧ (instr g inputs free s).node = ⟨n⟩ := by
  rw [instr, hs]
  exact ⟨rfl, rfl⟩

/-- Steps in order give instructions in order. -/
theorem Compiled.ordered_of_steps (hc : Compiled origin inputs outputs tape) {bound : Nat}
    (hagree : MatrixGraph.arena.AgreeBelow origin g bound) {steps : List SlottedStep}
    (hsteps : ∀ s ∈ steps, s ∈ (scheduleFor origin outputs).steps) {done : List Nat}
    (ho : Step.Ordered origin.valueOperandNumbers bound done (steps.map SlottedStep.step)) :
    Ordered g inputs outputs (done.map MatrixId.mk)
      (steps.map (instr origin inputs tape.freeSymbols)) := by
  induction steps generalizing done with
  | nil => exact .nil _
  | cons s rest ih =>
    have hs := hsteps s (by simp)
    have hrest := fun s' hs' => hsteps s' (List.mem_cons_of_mem s hs')
    rw [List.map_cons] at ho ⊢
    cases hstep : s.step with
    | store root n =>
      rw [hstep] at ho
      obtain ⟨hop, hnode⟩ := instr_of_store hstep origin inputs tape.freeSymbols
      have hroot := Schedule.getElem?_of_store (valueOperandNumbers_lt origin) hc.roots_lt hs hstep
      rw [List.getElem?_map] at hroot
      obtain ⟨e, he, rfl⟩ := Option.map_eq_some_iff.mp hroot
      exact .store hop (by rw [hnode]; exact he) (by rw [hnode]; exact List.mem_map_of_mem ho.1)
        (ih hrest ho.2)
    | compute n =>
      rw [hstep] at ho
      obtain ⟨hnew, hlt, hoperands, ho⟩ := ho
      obtain ⟨hop, hnode⟩ := instr_of_compute hstep origin inputs tape.freeSymbols
      obtain ⟨node, hn⟩ := hc.node?_of_computed
        (List.mem_filterMap.mpr ⟨s, hs, by rw [hstep]; rfl⟩)
      have hn' : g.node? ⟨n⟩ = some node :=
        (MatrixGraph.node?_eq_of_agreeBelow (e := ⟨n⟩) hagree hlt).symm.trans hn
      refine .compute (by rw [hnode]; exact hn') (by rw [hop, hnode]; exact carries_opOf hn _) ?_ ?_ ?_
      · rw [hnode]
        intro hmem
        obtain ⟨k, hk, heq⟩ := List.mem_map.mp hmem
        exact hnew (MatrixId.mk.inj heq ▸ hk)
      · intro a ha
        have hmem : a.index ∈ origin.valueOperandNumbers n := by
          rw [MatrixGraph.valueOperandNumbers, MatrixGraph.valueOperands, hn]
          exact List.mem_map_of_mem ha
        exact List.mem_map_of_mem (f := MatrixId.mk) (hoperands _ hmem)
      · have hordered := ih hrest ho
        rwa [List.map_append, List.map_singleton, ← hnode] at hordered

/-- **Instructions are in order.** -/
theorem Resides.ordered (ht : Resides g inputs outputs tape) :
    Ordered g inputs outputs [] tape.instrs := by
  obtain ⟨origin, bound, hc, hagree, horigin, -, -, hout⟩ := ht
  have hroots : ∀ r ∈ outputs.map MatrixId.index, r < bound := by
    intro r hr
    obtain ⟨e, he, rfl⟩ := List.mem_map.mp hr
    exact hout e he
  have hsteps := Schedule.ordered_stepsFor_of_le (valueOperandNumbers_lt origin) horigin hroots
  rw [← Schedule.steps_make (Schedule.ordered_stepsFor (valueOperandNumbers_lt origin) hc.roots_lt)]
    at hsteps
  rw [hc.instrs]
  exact hc.ordered_of_steps hagree (fun _ hs => hs) hsteps

theorem stores?_instr (g : MatrixGraph) (inputs free : List MatrixId) (s : SlottedStep) :
    (instr g inputs free s).stores? = s.step.stores?.map fun (root, n) => (root, ⟨n⟩) := by
  cases hs : s.step with
  | store root n =>
    obtain ⟨hop, hnode⟩ := instr_of_store hs g inputs free
    rw [MatrixInstr.stores?, hop, hnode]
    rfl
  | compute n =>
    rw [MatrixInstr.stores?, (instr_of_compute hs g inputs free).1]
    split
    · exact absurd ‹_› (opOf_ne_output g inputs free ⟨n⟩ _)
    · rfl

/-- Outputs are stored one after another. -/
theorem Resides.stores (ht : Resides g inputs outputs tape) :
    tape.instrs.filterMap MatrixInstr.stores? = outputs.zipIdx.map Prod.swap := by
  obtain ⟨origin, bound, hc, -⟩ := ht
  have hsteps := Schedule.steps_make
    (Schedule.ordered_stepsFor (valueOperandNumbers_lt origin) hc.roots_lt)
  have hstores := Schedule.stores_stepsFor origin.valueOperandNumbers origin.size
    (outputs.map MatrixId.index)
  rw [← hsteps] at hstores
  have hinstr : MatrixInstr.stores? ∘ instr origin inputs tape.freeSymbols
      = (Option.map fun (root, n) => (root, MatrixId.mk n)) ∘ Step.stores? ∘ SlottedStep.step :=
    funext fun s => stores?_instr origin inputs tape.freeSymbols s
  calc tape.instrs.filterMap MatrixInstr.stores?
      = (((scheduleFor origin outputs).steps.map SlottedStep.step).filterMap Step.stores?).map
          fun (root, n) => (root, MatrixId.mk n) := by
        rw [hc.instrs, List.filterMap_map, hinstr, List.filterMap_map, List.map_filterMap]
        rfl
    _ = ((outputs.map MatrixId.index).zipIdx.map fun (root, k) => (k, root)).map
          fun (root, n) => (root, MatrixId.mk n) := congrArg _ hstores
    _ = outputs.zipIdx.map Prod.swap := by
        rw [List.zipIdx_map, List.map_map, List.map_map]
        rfl

end MatrixTape

end Fluxion
