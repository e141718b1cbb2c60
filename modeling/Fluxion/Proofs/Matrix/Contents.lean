import Fluxion.Proofs.Matrix.Compile
import Fluxion.Proofs.Schedule.Reachability

/-!
# What a matrix tape holds

As for scalar tapes, the instructions are held against the steps of the program one by one. An
instruction of a matrix tape says itself which expression it computes or stores, so that is compared
as well. The nodes of a program are those that values need: the guess of a lift is not followed,
unless something else needs it.

## Main definitions

* `MatrixTape.Computes` — an operation is that of an expression
* `MatrixTape.CarriesOut` — an instruction does what a step says
* `MatrixTape.Contents` — what a tape holds, with its free symbols and its length

## Main results

* `MatrixTape.Compiled.contents` — tapes hold what the values of their outputs need
-/

namespace Fluxion

namespace MatrixTape

/-- An operation computes an expression. -/
inductive Computes (g : MatrixGraph) (inputs free : List MatrixId) (e : MatrixId) : MatrixOp → Prop
  | constant {m : SparseMatrix Binary64} (h : g.node? e = some (.constant m)) :
    Computes g inputs free e (.constant m.values)
  | unary {op : UnaryOp} {a : MatrixId} (h : g.node? e = some (.unary op a)) :
    Computes g inputs free e (.unary op)
  | binary {op : BinaryOp} {a b : MatrixId} (h : g.node? e = some (.binary op a b)) :
    Computes g inputs free e (.binary op)
  | product {a b : MatrixId} {left right : Pattern} (h : g.node? e = some (.product a b))
    (ha : g.pattern? a = some left) (hb : g.pattern? b = some right) :
    Computes g inputs free e (.product left right)
  | gather {arguments : List MatrixId} {map : GatherMap} {p : Pattern}
    (h : g.node? e = some (.gather arguments map p)) :
    Computes g inputs free e (.gather map)
  | scatter {a : MatrixId} {map : ScatterMap} {p : Pattern}
    (h : g.node? e = some (.scatter a map p)) :
    Computes g inputs free e (.scatter map)
  | call {routine : Routine} {arguments : List MatrixId} {output : Nat}
    (h : g.node? e = some (.call routine arguments output)) :
    Computes g inputs free e (.call routine output)
  | lift {value guess : MatrixId} (h : g.node? e = some (.lift value guess)) :
    Computes g inputs free e .lift
  /-- A symbol that is an input is loaded from its place. -/
  | input {k : Nat} (h : inputs[k]? = some e) : Computes g inputs free e (.input k)
  /-- A free symbol is loaded from its place among the free symbols. -/
  | free {k : Nat} (h : free[k]? = some e) : Computes g inputs free e (.free k)

/-- An instruction does what a step says, in whatever slots. -/
inductive CarriesOut (g : MatrixGraph) (inputs free : List MatrixId) : Step → MatrixInstr → Prop
  | compute {e : MatrixId} {op : MatrixOp} (arguments : List Nat) (result : Nat) {p : Pattern}
    (hop : Computes g inputs free e op) (hp : g.pattern? e = some p) :
    CarriesOut g inputs free (.compute e.index) ⟨op, arguments, some result, p, e⟩
  | store {e : MatrixId} (k : Nat) (arguments : List Nat) {p : Pattern}
    (hp : g.pattern? e = some p) :
    CarriesOut g inputs free (.store k e.index) ⟨.output k, arguments, none, p, e⟩

/-- What a tape holds that computes outputs from inputs. -/
structure Contents (g : MatrixGraph) (inputs outputs : List MatrixId) (tape : MatrixTape) :
    Prop where
  /-- The instructions are those of a program for the outputs. -/
  program : ∃ steps, Schedule.Lists g.valueOperandNumbers (outputs.map MatrixId.index) steps ∧
    List.Forall₂ (CarriesOut g inputs tape.freeSymbols) steps tape.instrs
  /-- Free symbols are the symbols that outputs reach and that are no inputs. -/
  mem_freeSymbols : ∀ e, e ∈ tape.freeSymbols ↔ g.isSymbol e = true ∧
    (∃ o ∈ outputs, Postorder.Reaches g.valueOperandNumbers o.index e.index) ∧ e ∉ inputs
  nodup_freeSymbols : tape.freeSymbols.Nodup
  /-- They stand in the order in which they are first met in the trees that outputs unfold into. -/
  order_freeSymbols : tape.freeSymbols
    = ((outputs.flatMap fun o =>
        Postorder.traversal g.valueOperandNumbers o.index).eraseDups.map MatrixId.mk).filter
          fun e => g.isSymbol e && !inputs.contains e
  /-- All instructions are counted: as many as the outputs reach nodes, and a store for each. -/
  length_instrs : tape.instrs.length
    = {n | ∃ o ∈ outputs, Postorder.Reaches g.valueOperandNumbers o.index n}.ncard + outputs.length

variable {g : MatrixGraph} {inputs outputs : List MatrixId} {tape : MatrixTape}

theorem pattern?_of_node? {e : MatrixId} {n : MatrixNode} (h : g.node? e = some n) :
    g.pattern? e = some (patternIn g e) := by
  obtain ⟨p, hp⟩ := MatrixGraph.node?_eq_some_iff.mp h
  have hpattern : g.pattern? e = some p := by rw [MatrixGraph.pattern?, hp]; rfl
  rw [patternIn, hpattern]
  rfl

theorem exists_node?_of_operand {e a : MatrixId} {n : MatrixNode} (h : g.node? e = some n)
    (ha : a ∈ n.operands) : ∃ m, g.node? a = some m := by
  have hlt : a.index < g.entries.items.size :=
    Nat.lt_trans (g.operands_before h a ha) (MatrixGraph.index_lt_of_node? h)
  exact ⟨_, congrArg (Option.map _) (Array.getElem?_eq_getElem hlt)⟩

/-- The operation of an expression computes it, if free symbols are all there. -/
theorem computes_opOf {free : List MatrixId} {e : MatrixId} {n : MatrixNode}
    (hn : g.node? e = some n) (hfree : n.isSymbol = true → e ∉ inputs → e ∈ free) :
    Computes g inputs free e (opOf g inputs free e) := by
  rw [opOf, hn]
  cases n with
  | constant m => exact .constant hn
  | unary op a => exact .unary hn
  | binary op a b => exact .binary hn
  | product a b =>
    obtain ⟨left, hleft⟩ := exists_node?_of_operand hn (a := a) (by simp [MatrixNode.operands])
    obtain ⟨right, hright⟩ := exists_node?_of_operand hn (a := b) (by simp [MatrixNode.operands])
    exact .product hn (pattern?_of_node? hleft) (pattern?_of_node? hright)
  | gather arguments map p => exact .gather hn
  | scatter a map p => exact .scatter hn
  | call routine arguments output => exact .call hn
  | lift value guess => exact .lift hn
  | symbol serial p =>
    cases hi : inputs.idxOf? e with
    | some k =>
      obtain ⟨hlt, hget, -⟩ := List.idxOf?_eq_some_iff.mp hi
      exact .input (by rw [List.getElem?_eq_getElem hlt, hget])
    | none =>
      have hmem : e ∈ free := hfree rfl (List.idxOf?_eq_none_iff.mp hi)
      exact .free (List.getElem?_idxOf hmem)

/-- The instruction of a step does what the step says. -/
theorem Compiled.carriesOut_instr (hc : Compiled g inputs outputs tape) {s : SlottedStep}
    (hs : s ∈ (scheduleFor g outputs).steps) :
    CarriesOut g inputs tape.freeSymbols s.step (instr g inputs tape.freeSymbols s) := by
  rw [instr]
  cases hstep : s.step with
  | store k n =>
    have hroot := Schedule.getElem?_of_store (valueOperandNumbers_lt g) hc.roots_lt hs hstep
    rw [List.getElem?_map] at hroot
    obtain ⟨e, he, rfl⟩ := Option.map_eq_some_iff.mp hroot
    obtain ⟨m, hm⟩ := hc.known e (List.mem_of_getElem? he)
    exact .store k _ (pattern?_of_node? hm)
  | compute n =>
    have hcomputed : n ∈ (scheduleFor g outputs).computed :=
      List.mem_filterMap.mpr ⟨s, hs, by rw [hstep]; rfl⟩
    obtain ⟨node, hnode⟩ := hc.node?_of_computed hcomputed
    refine .compute _ _ (computes_opOf hnode fun hsymbol hinput => ?_) (pattern?_of_node? hnode)
    rw [hc.free, List.mem_filter]
    refine ⟨List.mem_map_of_mem hcomputed, ?_⟩
    simp [MatrixGraph.isSymbol, hnode, hsymbol, hinput]

/-- **A tape holds what the values of its outputs need**: for each node that is one instruction,
after those of the operands and no earlier than an output needs it. -/
theorem Compiled.contents (hc : Compiled g inputs outputs tape) :
    Contents g inputs outputs tape := by
  have hordered := Schedule.ordered_stepsFor (valueOperandNumbers_lt g) hc.roots_lt
  have hlists := Schedule.lists_stepsFor (valueOperandNumbers_lt g) hc.roots_lt
  have hcarries : List.Forall₂ (CarriesOut g inputs tape.freeSymbols)
      (Schedule.stepsFor g.valueOperandNumbers g.size (outputs.map MatrixId.index))
      tape.instrs := by
    rw [hc.instrs, ← Schedule.steps_make hordered, List.forall₂_map_left_iff,
      List.forall₂_map_right_iff]
    exact List.forall₂_same.mpr fun s hs => hc.carriesOut_instr hs
  have hfree : tape.freeSymbols
      = ((outputs.flatMap fun o =>
          Postorder.traversal g.valueOperandNumbers o.index).eraseDups.map MatrixId.mk).filter
            fun e => g.isSymbol e && !inputs.contains e := by
    rw [hc.free, scheduleFor, Schedule.computed_eq hordered, hlists.order, List.flatMap_map]
  have hnodup := hlists.nodup
  rw [hlists.order, List.flatMap_map] at hnodup
  refine
    { program := ⟨_, hlists, hcarries⟩
      mem_freeSymbols := fun e => ?_
      nodup_freeSymbols := ?_
      order_freeSymbols := hfree
      length_instrs := ?_ }
  · have hmem : e ∈ (outputs.flatMap fun o =>
          Postorder.traversal g.valueOperandNumbers o.index).eraseDups.map MatrixId.mk
        ↔ ∃ o ∈ outputs, Postorder.Reaches g.valueOperandNumbers o.index e.index :=
      (List.mem_map_of_injective (a := e.index) fun _ _ => MatrixId.mk.inj).trans
        (Postorder.mem_eraseDups_traversals (valueOperandNumbers_lt g))
    rw [hfree, List.mem_filter, hmem]
    simp only [Bool.and_eq_true, Bool.not_eq_true', List.contains_eq_mem, decide_eq_false_iff_not]
    tauto
  · rw [hfree]
    exact (hnodup.map fun _ _ => MatrixId.mk.inj).filter _
  · rw [← hcarries.length_eq, hlists.length_steps, List.length_map]
    simp only [List.mem_map, exists_exists_and_eq_and]

end MatrixTape

end Fluxion
