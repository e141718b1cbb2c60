import Fluxion.Proofs.Matrix.Meaning
import Fluxion.Proofs.Schedule.Faithful

/-!
# Matrix tapes compute what their expressions mean

A compiled matrix tape computes, over any algebra without effects, the values that recursion over the
graph gives. As for scalar tapes the schedule is faithful, so every instruction finds the values of
its operands, and what is left is to hold instructions against nodes.

A tape *resides* in a graph that has its nodes. That is all that replays and sweeps in the graph need
to know of it.

## Main definitions

* `MatrixTape.Compiled` — what a tape that was compiled is made of
* `MatrixTape.supply` — values given for the inputs
* `MatrixTape.Resides` — a graph has the nodes of a tape

## Main results

* `MatrixTape.compiled_of_compile` — what compilation makes
* `MatrixTape.exists_compile` — what compiles
* `MatrixTape.Resides.replay_eq` — **outputs are values of expressions**
* `MatrixTape.Resides.pattern?_node` — instructions carry the patterns of their expressions
-/

namespace Fluxion

namespace MatrixTape

/-! ### What compilation makes -/

theorem checkInputs_eq_ok {g : MatrixGraph} {seen inputs : List MatrixId} {i : Nat}
    (h : checkInputs g seen i inputs = .ok ()) :
    (∀ e ∈ inputs, g.isSymbol e = true ∧ e ∉ seen) ∧ inputs.Nodup := by
  induction inputs generalizing seen i with
  | nil => exact ⟨by simp, List.nodup_nil⟩
  | cons e rest ih =>
    rw [checkInputs] at h
    split at h
    · contradiction
    · rename_i n hn
      split at h
      · contradiction
      · rename_i hsymbol
        split at h
        · contradiction
        · rename_i hseen
          obtain ⟨hrest, hnodup⟩ := ih h
          have hfresh : ∀ d ∈ rest, d ∉ seen ∧ d ≠ e := by
            intro d hd
            have hd := (hrest d hd).2
            exact ⟨fun h => hd (List.mem_cons_of_mem e h), fun h => hd (by simp [h])⟩
          refine ⟨fun d hd => ?_, List.nodup_cons.mpr ⟨fun he => (hfresh e he).2 rfl, hnodup⟩⟩
          rcases List.mem_cons.mp hd with rfl | hd
          · exact ⟨by simpa [MatrixGraph.isSymbol, hn] using hsymbol, by simpa using hseen⟩
          · exact ⟨(hrest d hd).1, (hfresh d hd).1⟩

/-- The program whose steps the instructions carry out. -/
def scheduleFor (g : MatrixGraph) (outputs : List MatrixId) : Schedule :=
  Schedule.make g.valueOperandNumbers g.size (outputs.map MatrixId.index)

/-- What a tape is made of that computes outputs from inputs, with the graph that they are
expressions of. -/
structure Compiled (g : MatrixGraph) (inputs outputs : List MatrixId) (tape : MatrixTape) :
    Prop where
  symbols : ∀ e ∈ inputs, g.isSymbol e = true
  nodup : inputs.Nodup
  known : ∀ e ∈ outputs, ∃ n, g.node? e = some n
  instrs : tape.instrs = (scheduleFor g outputs).steps.map (instr g inputs tape.freeSymbols)
  free : tape.freeSymbols = ((scheduleFor g outputs).computed.map MatrixId.mk).filter fun e =>
    g.isSymbol e && !inputs.contains e
  workSize : tape.workSize = (scheduleFor g outputs).workSize

theorem known_of_unknown? {g : MatrixGraph} {es : List MatrixId} (h : g.unknown? es = none) :
    ∀ e ∈ es, ∃ n, g.node? e = some n := by
  intro e he
  have := List.find?_eq_none.mp h e he
  cases hn : g.node? e with
  | none => simp [hn] at this
  | some n => exact ⟨n, rfl⟩

theorem compiled_of_compile {g : MatrixGraph} {inputs outputs : List MatrixId} {tape : MatrixTape}
    (h : compile g inputs outputs = .ok tape) : Compiled g inputs outputs tape := by
  rw [compile] at h
  split at h
  · contradiction
  · rename_i hcheck
    split at h
    · contradiction
    · rename_i hknown
      obtain ⟨hsymbols, hnodup⟩ := checkInputs_eq_ok hcheck
      cases h
      exact ⟨fun e he => (hsymbols e he).1, hnodup, known_of_unknown? hknown, rfl, rfl, rfl⟩

theorem checkInputs_eq_ok_of_symbols {g : MatrixGraph} {seen inputs : List MatrixId} {i : Nat}
    (hinputs : ∀ e ∈ inputs, g.isSymbol e = true ∧ e ∉ seen) (hnodup : inputs.Nodup) :
    checkInputs g seen i inputs = .ok () := by
  induction inputs generalizing seen i with
  | nil => rfl
  | cons e rest ih =>
    obtain ⟨⟨hsymbol, hseen⟩, hrest⟩ := List.forall_mem_cons.mp hinputs
    obtain ⟨hfresh, hnodup⟩ := List.nodup_cons.mp hnodup
    obtain ⟨n, hn, hnode⟩ := (Option.any_eq_true ..).mp hsymbol
    have hnext : ∀ d ∈ rest, g.isSymbol d = true ∧ d ∉ e :: seen := by
      refine fun d hd => ⟨(hrest d hd).1, ?_⟩
      rw [List.mem_cons, not_or]
      exact ⟨fun h => hfresh (h ▸ hd), (hrest d hd).2⟩
    simp only [checkInputs, hn, hnode, List.contains_eq_mem, hseen, Bool.not_true, decide_false,
      Bool.false_eq_true, if_false]
    exact ih hnext hnodup

/-- Outputs that the graph has compile against inputs that are different symbols. -/
theorem exists_compile {g : MatrixGraph} {inputs outputs : List MatrixId}
    (hsymbols : ∀ e ∈ inputs, g.isSymbol e = true) (hnodup : inputs.Nodup)
    (hknown : ∀ e ∈ outputs, ∃ n, g.node? e = some n) : ∃ tape, compile g inputs outputs = .ok tape := by
  have hcheck : checkInputs g [] 0 inputs = .ok () :=
    checkInputs_eq_ok_of_symbols (fun e he => ⟨hsymbols e he, List.not_mem_nil⟩) hnodup
  have hunknown : g.unknown? outputs = none := by
    refine List.find?_eq_none.mpr fun e he => ?_
    obtain ⟨n, hn⟩ := hknown e he
    simp [hn]
  rw [compile, hcheck, hunknown]
  exact ⟨_, rfl⟩

variable {g h : MatrixGraph} {inputs outputs : List MatrixId} {tape : MatrixTape}

theorem valueOperandNumbers_lt (g : MatrixGraph) : ∀ n, ∀ a ∈ g.valueOperandNumbers n, a < n := by
  intro n a ha
  obtain ⟨b, hb, rfl⟩ := List.mem_map.mp ha
  rw [MatrixGraph.valueOperands] at hb
  cases hn : g.node? ⟨n⟩ with
  | none => simp [hn] at hb
  | some node =>
    rw [hn] at hb
    exact g.operands_before hn b (node.valueOperands_subset hb)

theorem Compiled.roots_lt (hc : Compiled g inputs outputs tape) :
    ∀ r ∈ outputs.map MatrixId.index, r < g.size := by
  intro r hr
  obtain ⟨e, he, rfl⟩ := List.mem_map.mp hr
  obtain ⟨n, hn⟩ := hc.known e he
  exact MatrixGraph.index_lt_of_node? hn

theorem Compiled.node?_of_computed (hc : Compiled g inputs outputs tape) {n : Nat}
    (hn : n ∈ (scheduleFor g outputs).computed) : ∃ node, g.node? ⟨n⟩ = some node := by
  have hlt : n < g.entries.items.size :=
    Schedule.lt_of_mem_computed (valueOperandNumbers_lt g) (Nat.le_refl _) hc.roots_lt hn
  exact ⟨_, congrArg (Option.map _) (Array.getElem?_eq_getElem hlt)⟩

theorem instr_node (g : MatrixGraph) (inputs free : List MatrixId) (s : SlottedStep) :
    (instr g inputs free s).node = ⟨s.step.node⟩ ∧
      (instr g inputs free s).pattern = patternIn g ⟨s.step.node⟩ := by
  rw [instr]
  cases s.step <;> exact ⟨rfl, rfl⟩

/-- The nodes of a program stay below any bound that the outputs stay below. -/
theorem Compiled.node_lt (hc : Compiled g inputs outputs tape) {bound : Nat}
    (hbound : bound ≤ g.size) (hout : ∀ e ∈ outputs, e.index < bound) {s : SlottedStep}
    (hs : s ∈ (scheduleFor g outputs).steps) : s.step.node < bound := by
  have hroots : ∀ r ∈ outputs.map MatrixId.index, r < bound := by
    intro r hr
    obtain ⟨e, he, rfl⟩ := List.mem_map.mp hr
    exact hout e he
  have hordered := Schedule.ordered_stepsFor_of_le (valueOperandNumbers_lt g) hbound hroots
  have hsteps := Schedule.steps_make
    (Schedule.ordered_stepsFor (valueOperandNumbers_lt g) hc.roots_lt)
  have hmem : s.step ∈ Schedule.stepsFor g.valueOperandNumbers g.size (outputs.map MatrixId.index) :=
    hsteps ▸ List.mem_map_of_mem hs
  obtain ⟨t, ht⟩ := List.getElem?_of_mem hmem
  cases hstep : s.step with
  | compute n =>
    rw [hstep] at ht
    exact (hordered.of_compute ht).2
  | store root n =>
    rw [hstep] at ht
    rcases hordered.exists_of_reads ht (a := n) (by simp [Step.reads]) with hdone | ⟨p, -, hp⟩
    · cases hdone
    · exact (hordered.of_compute hp).2

theorem map_patternIn {es : List MatrixId} (hes : ∀ e ∈ es, ∃ n, g.node? e = some n) :
    es.map g.pattern? = (es.map (patternIn g)).map some := by
  rw [List.map_map]
  refine List.map_congr_left fun e he => ?_
  obtain ⟨n, hn⟩ := hes e he
  obtain ⟨p, hk⟩ := MatrixGraph.node?_eq_some_iff.mp hn
  have hp : g.pattern? e = some p := by rw [MatrixGraph.pattern?, hk]; rfl
  show g.pattern? e = some (patternIn g e)
  rw [patternIn, hp]
  rfl

/-! ### Runs of compiled tapes -/

section Run

variable {V : Type} {A : Algebra Id V} {values : Bundle V}

/-- Values given for the inputs, and for nothing else. -/
def supply (inputs : List MatrixId) (values : Bundle V) (e : MatrixId) : Option (List V) :=
  (inputs.idxOf? e).map (values.getD · [])

/-- Values that fit the patterns of the inputs. -/
theorem length_supply {ps : List Pattern} {e : MatrixId}
    {found : List V} {p : Pattern} (hin : inputs.map g.pattern? = ps.map some)
    (hvalues : values.map List.length = ps.map Pattern.nnz)
    (hfound : supply inputs values e = some found) (hp : g.pattern? e = some p) :
    found.length = p.nnz := by
  obtain ⟨i, hi, rfl⟩ := Option.map_eq_some_iff.mp hfound
  obtain ⟨hlt, hget, -⟩ := List.idxOf?_eq_some_iff.mp hi
  have hpattern : (ps.map some)[i]? = some (some p) := by
    rw [← hin, List.getElem?_map, List.getElem?_eq_getElem hlt, hget, Option.map_some, hp]
  have hps : ps[i]? = some p := by simpa using hpattern
  have hlength : values[i]?.map List.length = some p.nnz := by
    rw [← List.getElem?_map, hvalues, List.getElem?_map, hps]
    rfl
  obtain ⟨vs, hvs, hlen⟩ := Option.map_eq_some_iff.mp hlength
  rw [List.getD_eq_getElem?_getD, hvs]
  exact hlen

/-- The value of a node by number. -/
def valueOf (g : MatrixGraph) (A : Algebra Id V) (given : MatrixId → Option (List V)) (n : Nat) :
    List V :=
  g.evaluate A given ⟨n⟩

/-- What a step does to the outputs. -/
def storeStep {W : Type} (value : Nat → W) (outputs : List W) : Step → List W
  | .compute _ => outputs
  | .store root n => outputs.set root (value n)

theorem supply_of_node? (hc : Compiled g inputs outputs tape) {e : MatrixId} {n : MatrixNode}
    (hn : g.node? e = some n) (hsymbol : n.isSymbol = false) :
    supply inputs values e = none := by
  rw [supply, Option.map_eq_none_iff, List.idxOf?_eq_none_iff]
  intro he
  have := hc.symbols e he
  rw [MatrixGraph.isSymbol, hn] at this
  exact absurd hsymbol (by simpa using this)

/-- An instruction computes the value of its expression from the values of the operands. -/
theorem run_opOf (hc : Compiled g inputs outputs tape) {e : MatrixId} {n : MatrixNode}
    (hn : g.node? e = some n) (free : List MatrixId) :
    Id.run ((opOf g inputs free e).run A (A.constant 0.0) values (patternIn g e)
        (n.valueOperands.map (g.evaluate A (supply inputs values))))
      = g.evaluate A (supply inputs values) e := by
  cases n with
  | symbol serial p =>
    rw [opOf, hn]
    cases hi : inputs.idxOf? e with
    | some i =>
      rw [MatrixGraph.evaluate_of_given (by rw [supply, hi]; rfl)]
      rfl
    | none =>
      rw [MatrixGraph.evaluate_of_node? (by rw [supply, hi]; rfl) hn]
      rfl
  | constant m =>
    rw [MatrixGraph.evaluate_of_node? (supply_of_node? hc hn rfl) hn, opOf, hn]
    exact List.idRun_mapM
  | unary op a =>
    rw [MatrixGraph.evaluate_of_node? (supply_of_node? hc hn rfl) hn, opOf, hn]
    exact List.idRun_mapM
  | binary | product | gather | scatter | call | lift =>
    rw [MatrixGraph.evaluate_of_node? (supply_of_node? hc hn rfl) hn, opOf, hn]
    rfl

theorem opOf_ne_output (g : MatrixGraph) (inputs free : List MatrixId) (e : MatrixId) (i : Nat) :
    opOf g inputs free e ≠ .output i := by
  rw [opOf]
  split <;> try (intro h; cases h)
  all_goals (split <;> (intro h; cases h))

/-- An instruction that is no store writes its values. -/
theorem exec_of_ne_output {op : MatrixOp} (hop : ∀ i, op ≠ .output i) (arguments : List Nat)
    (result : Nat) (p : Pattern) (e : MatrixId) (r : Run V) (zero : V) :
    exec A zero values r ⟨op, arguments, some result, p, e⟩
      = (⟨r.slots.setIfInBounds result
          (Id.run (op.run A zero values p (arguments.map fun slot => r.slots.getD slot []))),
        r.outputs⟩ : Run V) := by
  cases op with
  | output i => exact absurd rfl (hop i)
  | _ => rfl

/-- **Instructions do what steps say**, if they find the values that steps read. -/
theorem exec_instr (hc : Compiled g inputs outputs tape) {s : SlottedStep}
    (hs : s ∈ (scheduleFor g outputs).steps) {r : Run V}
    (hread : s.arguments.map (r.slots.getD · [])
      = (s.step.reads g.valueOperandNumbers).map (valueOf g A (supply inputs values))) :
    exec A (A.constant 0.0) values r (instr g inputs tape.freeSymbols s)
      = (⟨s.after (valueOf g A (supply inputs values)) r.slots,
        storeStep (valueOf g A (supply inputs values)) r.outputs s.step⟩ : Run V) := by
  cases hstep : s.step with
  | store root n =>
    rw [hstep] at hread
    have hvalue : (s.arguments.map (r.slots.getD · [])).getD 0 []
        = valueOf g A (supply inputs values) n := by rw [hread]; rfl
    rw [instr, hstep, SlottedStep.after, hstep, storeStep, ← hvalue]
    rfl
  | compute n =>
    have hcomputed : n ∈ (scheduleFor g outputs).computed :=
      List.mem_filterMap.mpr ⟨s, hs, by rw [hstep]; rfl⟩
    obtain ⟨node, hnode⟩ := hc.node?_of_computed hcomputed
    have hoperands : s.arguments.map (r.slots.getD · [])
        = node.valueOperands.map (g.evaluate A (supply inputs values)) := by
      rw [hread, hstep, Step.reads, MatrixGraph.valueOperandNumbers, MatrixGraph.valueOperands,
        hnode, List.map_map]
      rfl
    have hvalue := @run_opOf g inputs outputs tape V A values hc _ node hnode tape.freeSymbols
    rw [instr, hstep, SlottedStep.after, hstep, storeStep]
    dsimp only
    rw [exec_of_ne_output (opOf_ne_output g inputs tape.freeSymbols ⟨n⟩), hoperands, hvalue]
    rfl

theorem outputs_foldl (hc : Compiled g inputs outputs tape) {steps : List SlottedStep}
    (hsteps : ∀ s ∈ steps, s ∈ (scheduleFor g outputs).steps) {r : Run V}
    (hfaithful : Schedule.Faithful (Step.reads g.valueOperandNumbers)
      (valueOf g A (supply inputs values)) [] r.slots steps) :
    (Id.run ((steps.map (instr g inputs tape.freeSymbols)).foldlM
        (exec A (A.constant 0.0) values) r)).outputs
      = (steps.map SlottedStep.step).foldl (storeStep (valueOf g A (supply inputs values)))
        r.outputs := by
  induction steps generalizing r with
  | nil => rfl
  | cons s rest ih =>
    obtain ⟨hread, hrest⟩ := hfaithful
    have hrun := @ih (fun s' hs' => hsteps s' (by simp [hs']))
      ⟨s.after (valueOf g A (supply inputs values)) r.slots,
        storeStep (valueOf g A (supply inputs values)) r.outputs s.step⟩ hrest
    rw [List.map_cons, List.foldlM_cons, exec_instr hc (hsteps s (by simp)) hread]
    exact hrun

/-- Only the stores of a list of steps matter for the outputs. -/
theorem foldl_storeStep {W : Type} (value : Nat → W) (steps : List Step) (stored : List W) :
    steps.foldl (storeStep value) stored
      = (steps.filterMap Step.stores?).foldl (fun stored (root, n) => stored.set root (value n))
        stored := by
  induction steps generalizing stored with
  | nil => rfl
  | cons s rest ih =>
    cases s with
    | compute n => exact ih stored
    | store root n => exact ih _

/-- Storing one value after another fills a list. -/
theorem foldl_set {W : Type} (value : Nat → W) (empty : W) (roots : List Nat) (done : List W) :
    ((roots.zipIdx done.length).foldl (fun stored (n, root) => stored.set root (value n))
        (done ++ List.replicate roots.length empty))
      = done ++ roots.map value := by
  induction roots generalizing done with
  | nil => simp
  | cons n rest ih =>
    have hset : (done ++ List.replicate (rest.length + 1) empty).set done.length (value n)
        = (done ++ [value n]) ++ List.replicate rest.length empty := by
      simp [List.replicate_succ]
    have hrest := ih (done ++ [value n])
    rw [List.length_append, List.length_singleton] at hrest
    rw [List.zipIdx_cons, List.foldl_cons, List.length_cons]
    dsimp only
    rw [hset, hrest, List.append_assoc]
    rfl

/-- A program stores its outputs one after another. -/
theorem Compiled.foldl_storeStep_outputs {W : Type} (hc : Compiled g inputs outputs tape)
    (value : Nat → W) (empty : W) :
    ((scheduleFor g outputs).steps.map SlottedStep.step).foldl (storeStep value)
        (List.replicate outputs.length empty)
      = outputs.map fun e => value e.index := by
  have hsteps := Schedule.steps_make
    (Schedule.ordered_stepsFor (valueOperandNumbers_lt g) hc.roots_lt)
  rw [scheduleFor, hsteps, foldl_storeStep, Schedule.stores_stepsFor, List.foldl_map]
  have hfill := foldl_set value empty (outputs.map MatrixId.index) []
  rw [List.length_map, List.map_map] at hfill
  exact hfill

/-- **Outputs are values of expressions.** -/
theorem Compiled.replay_eq (hc : Compiled g inputs outputs tape) (A : Algebra Id V)
    (values : Bundle V) :
    Id.run (tape.replay A values outputs.length)
      = outputs.map (g.evaluate A (supply inputs values)) := by
  have hfaithful := Schedule.faithful_make (valueOperandNumbers_lt g) hc.roots_lt
    (valueOf g A (supply inputs values)) []
  have hrun := outputs_foldl hc (fun _ hs => hs)
    (r := ⟨Array.replicate tape.workSize [], List.replicate outputs.length []⟩)
    (by rw [hc.workSize]; exact hfaithful)
  have hreplay : Id.run (tape.replay A values outputs.length)
      = (Id.run (tape.instrs.foldlM (exec A (A.constant 0.0) values)
        ⟨Array.replicate tape.workSize [], List.replicate outputs.length []⟩)).outputs := rfl
  rw [hreplay, hc.instrs, hrun]
  exact hc.foldl_storeStep_outputs _ _

end Run

/-! ### Tapes in a graph -/

/-- The graph `g` has, as they were when the tape was compiled, all nodes below a bound that the
expressions stay below. -/
def Resides (g : MatrixGraph) (inputs outputs : List MatrixId) (tape : MatrixTape) : Prop :=
  ∃ (origin : MatrixGraph) (bound : Nat), Compiled origin inputs outputs tape ∧
    MatrixGraph.arena.AgreeBelow origin g bound ∧ bound ≤ origin.size ∧ bound ≤ g.size ∧
    (∀ e ∈ inputs, e.index < bound) ∧ ∀ e ∈ outputs, e.index < bound

namespace Resides

theorem grow (ht : Resides g inputs outputs tape) (hgrow : g.Grows h) :
    Resides h inputs outputs tape := by
  obtain ⟨origin, bound, hcompiled, hagree, horigin, hsize, hin, hout⟩ := ht
  exact ⟨origin, bound, hcompiled, hagree.trans (hgrow.arena.agreeBelow.mono hsize), horigin,
    Nat.le_trans hsize hgrow.size_le, hin, hout⟩

theorem replay_eq {V : Type} (ht : Resides g inputs outputs tape) (A : Algebra Id V)
    (values : Bundle V) :
    Id.run (tape.replay A values outputs.length)
      = outputs.map (g.evaluate A (supply inputs values)) := by
  obtain ⟨origin, bound, hcompiled, hagree, -, -, -, hout⟩ := ht
  rw [hcompiled.replay_eq]
  exact List.map_congr_left fun e he => MatrixGraph.evaluate_congr hagree (hout e he)

/-- Instructions carry the patterns of their expressions. -/
theorem pattern?_node (ht : Resides g inputs outputs tape) {i : MatrixInstr}
    (hi : i ∈ tape.instrs) : g.pattern? i.node = some i.pattern := by
  obtain ⟨origin, bound, hcompiled, hagree, horigin, -, -, hout⟩ := ht
  rw [hcompiled.instrs] at hi
  obtain ⟨s, hs, rfl⟩ := List.mem_map.mp hi
  have hlt := hcompiled.node_lt horigin hout hs
  have hsize : s.step.node < origin.entries.items.size := Nat.lt_of_lt_of_le hlt horigin
  have hpattern : origin.pattern? ⟨s.step.node⟩
      = some (patternIn origin ⟨s.step.node⟩) := by
    have hentry : origin.entries.items[s.step.node]? = some origin.entries.items[s.step.node] :=
      Array.getElem?_eq_getElem hsize
    rw [patternIn, MatrixGraph.pattern?, hentry]
    rfl
  have hsame := MatrixGraph.pattern?_eq_of_agreeBelow (e := ⟨s.step.node⟩) hagree hlt
  rw [(instr_node origin inputs tape.freeSymbols s).1, (instr_node origin inputs _ s).2]
  exact hsame.symm.trans hpattern

/-- Inputs are symbols. -/
theorem symbols (ht : Resides g inputs outputs tape) : ∀ e ∈ inputs, g.isSymbol e = true := by
  obtain ⟨origin, bound, hcompiled, hagree, -, -, hin, -⟩ := ht
  intro e he
  rw [MatrixGraph.isSymbol, ← MatrixGraph.node?_eq_of_agreeBelow hagree (hin e he)]
  exact hcompiled.symbols e he

/-- No expression is two inputs. -/
theorem nodup (ht : Resides g inputs outputs tape) : inputs.Nodup := by
  obtain ⟨origin, bound, hcompiled, -⟩ := ht
  exact hcompiled.nodup

end Resides

end MatrixTape

end Fluxion
