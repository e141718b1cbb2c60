import Fluxion.Proofs.Matrix.Compile
import Fluxion.Proofs.Matrix.Stored

/-!
# Free symbols as further inputs

A tape takes values for the inputs only, and where it meets a free symbol it puts zeros. What it computes
when the free symbols have values as well is what it computes when they are inputs, too. So a tape is
*closed* by making inputs of them: the inputs of the function come first, the free symbols follow in the
order in which they are met. Nothing is compiled again, and yet this is what would be compiled if the
function had been declared with all these inputs.

An assignment gives values to all symbols of a graph at once. Given nothing else, expressions have the
values that a closed tape computes from those of the inputs and of the free symbols.

## Main definitions

* `MatrixTape.close` — the tape whose further inputs are the free symbols
* `MatrixGraph.assigned` — values for all symbols

## Main results

* `MatrixTape.Compiled.close` — closing is compiling with further inputs
* `MatrixTape.Resides.replay_close` — **closed tapes compute what expressions mean** when any values are
  given for symbols
-/

namespace Fluxion

/-! ### Closed tapes -/

/-- A free symbol becomes an input that follows the others. -/
def MatrixOp.close (inputCount : Nat) : MatrixOp → MatrixOp
  | free k => .input (inputCount + k)
  | op => op

namespace MatrixTape

/-- The tape whose inputs are those of the function and after them the free symbols. -/
def close (tape : MatrixTape) (inputCount : Nat) : MatrixTape where
  instrs := tape.instrs.map fun i => { i with op := i.op.close inputCount }
  freeSymbols := []
  freeNames := []
  workSize := tape.workSize

variable {g origin : MatrixGraph} {inputs outputs : List MatrixId} {tape : MatrixTape}

theorem Compiled.mem_freeSymbols (hc : Compiled g inputs outputs tape) {e : MatrixId} :
    e ∈ tape.freeSymbols ↔
      e.index ∈ (scheduleFor g outputs).computed ∧ g.isSymbol e = true ∧ e ∉ inputs := by
  have hmk : e ∈ (scheduleFor g outputs).computed.map MatrixId.mk
      ↔ e.index ∈ (scheduleFor g outputs).computed :=
    ⟨fun h => by obtain ⟨n, hn, rfl⟩ := List.mem_map.mp h; exact hn,
      fun h => List.mem_map.mpr ⟨_, h, rfl⟩⟩
  rw [hc.free, List.mem_filter, hmk]
  simp

/-- A symbol that is computed is an input or free. -/
theorem Compiled.mem_of_symbol (hc : Compiled g inputs outputs tape) {e : MatrixId}
    (he : e.index ∈ (scheduleFor g outputs).computed) (hsymbol : g.isSymbol e = true) :
    e ∈ inputs ++ tape.freeSymbols := by
  by_cases hinput : e ∈ inputs
  · exact List.mem_append_left _ hinput
  · exact List.mem_append_right _ (hc.mem_freeSymbols.mpr ⟨he, hsymbol, hinput⟩)

theorem Compiled.nodup_append (hc : Compiled g inputs outputs tape) :
    (inputs ++ tape.freeSymbols).Nodup := by
  refine List.nodup_append'.mpr ⟨hc.nodup, ?_, fun e he hfree => ?_⟩
  · rw [hc.free]
    have hcomputed := Schedule.nodup_computed (valueOperandNumbers_lt g) hc.roots_lt
    exact (hcomputed.map fun _ _ h => MatrixId.mk.inj h).filter _
  · exact (hc.mem_freeSymbols.mp hfree).2.2 he

/-- Free symbols are symbols, in every graph that the tape resides in, and no inputs. -/
theorem Resides.free (ht : Resides g inputs outputs tape) :
    ∀ e ∈ tape.freeSymbols, g.isSymbol e = true ∧ e ∉ inputs := by
  obtain ⟨origin, bound, hc, hagree, horigin, -, -, hout⟩ := ht
  intro e he
  obtain ⟨hcomputed, hsymbol, hinput⟩ := hc.mem_freeSymbols.mp he
  have hlt := Schedule.lt_of_mem_computed (valueOperandNumbers_lt origin) horigin
    (List.forall_mem_map.mpr hout) hcomputed
  rw [MatrixGraph.isSymbol, ← MatrixGraph.node?_eq_of_agreeBelow hagree hlt]
  exact ⟨hsymbol, hinput⟩

/-- With free symbols as inputs, instructions are the closed ones. -/
theorem Compiled.opOf_close (hc : Compiled g inputs outputs tape) {n : Nat}
    (hn : n ∈ (scheduleFor g outputs).computed) :
    (opOf g inputs tape.freeSymbols ⟨n⟩).close inputs.length
      = opOf g (inputs ++ tape.freeSymbols) [] ⟨n⟩ := by
  obtain ⟨node, hnode⟩ := hc.node?_of_computed hn
  rw [opOf, opOf, hnode]
  cases node with
  | symbol serial p =>
    dsimp only
    cases hi : inputs.idxOf? ⟨n⟩ with
    | some i =>
      have hget : (inputs ++ tape.freeSymbols)[i]? = some ⟨n⟩ := by
        have hi := getElem?_eq_of_idxOf? hi
        rwa [List.getElem?_append_left (List.getElem?_eq_some_iff.mp hi).1]
      rw [idxOf?_of_getElem? hc.nodup_append hget]
      rfl
    | none =>
      have hfree : ⟨n⟩ ∈ tape.freeSymbols := hc.mem_freeSymbols.mpr
        ⟨hn, by rw [MatrixGraph.isSymbol, hnode]; rfl, List.idxOf?_eq_none_iff.mp hi⟩
      have hget : (inputs ++ tape.freeSymbols)[inputs.length + tape.freeSymbols.idxOf ⟨n⟩]?
          = some ⟨n⟩ := by
        rw [List.getElem?_append_right (Nat.le_add_right _ _), Nat.add_sub_cancel_left]
        exact List.getElem?_idxOf hfree
      rw [idxOf?_of_getElem? hc.nodup_append hget]
      rfl
  | _ => rfl

/-- **Closing is compiling with further inputs.** -/
theorem Compiled.close (hc : Compiled g inputs outputs tape) :
    Compiled g (inputs ++ tape.freeSymbols) outputs (tape.close inputs.length) where
  symbols e he := by
    rcases List.mem_append.mp he with he | he
    · exact hc.symbols e he
    · exact (hc.mem_freeSymbols.mp he).2.1
  nodup := hc.nodup_append
  known := hc.known
  instrs := by
    rw [MatrixTape.close, hc.instrs, List.map_map]
    refine List.map_congr_left fun s hs => ?_
    rw [Function.comp_apply, instr, instr]
    cases hstep : s.step with
    | store root n => rfl
    | compute n =>
      have hcomputed : n ∈ (scheduleFor g outputs).computed :=
        List.mem_filterMap.mpr ⟨s, hs, by rw [hstep]; rfl⟩
      dsimp only
      rw [hc.opOf_close hcomputed]
  free := by
    refine (List.filter_eq_nil_iff.mpr fun e he => ?_).symm
    obtain ⟨n, hn, rfl⟩ := List.mem_map.mp he
    cases hsymbol : g.isSymbol ⟨n⟩ with
    | false => simp
    | true =>
      rw [List.contains_iff_mem.mpr (hc.mem_of_symbol hn hsymbol)]
      decide
  workSize := hc.workSize

/-! ### Runs of closed tapes -/

variable {V : Type} {A : Algebra Id V} {given : MatrixId → Option (List V)}

/-- What is computed reads no symbols but inputs and free ones, so other values need not be given. -/
theorem Compiled.evaluate_supply (hc : Compiled g inputs outputs tape)
    (hgiven : ∀ e n, e.index ∈ (scheduleFor g outputs).computed → g.node? e = some n →
      n.isSymbol = false → given e = none)
    {e : MatrixId} (he : e.index ∈ (scheduleFor g outputs).computed) :
    g.evaluate A (supply (inputs ++ tape.freeSymbols)
        ((inputs ++ tape.freeSymbols).map (g.evaluate A given))) e = g.evaluate A given e := by
  induction e using MatrixGraph.valueOperands_induction g with
  | step e ih =>
    obtain ⟨n, hn⟩ := hc.node?_of_computed he
    cases hi : (inputs ++ tape.freeSymbols).idxOf? e with
    | some i =>
      rw [MatrixGraph.evaluate_of_given (by rw [supply, hi]; rfl)]
      exact getD_of_getElem? (by rw [List.getElem?_map, getElem?_eq_of_idxOf? hi]; rfl) _
    | none =>
      have hsymbol : n.isSymbol = false := by
        by_contra hsymbol
        refine List.idxOf?_eq_none_iff.mp hi (hc.mem_of_symbol he ?_)
        rw [MatrixGraph.isSymbol, hn]
        simpa using hsymbol
      rw [MatrixGraph.evaluate_of_node? (by rw [supply, hi]; rfl) hn,
        MatrixGraph.evaluate_of_node? (hgiven e n he hn hsymbol) hn]
      refine MatrixNode.apply_congr (fun _ _ => rfl) fun a ha => ih n hn a ha ?_
      refine Schedule.mem_computed_of_operand (valueOperandNumbers_lt g) hc.roots_lt he ?_
      rw [MatrixGraph.valueOperandNumbers, MatrixGraph.valueOperands, hn]
      exact List.mem_map_of_mem ha

/-- **Closed tapes compute what expressions mean**, from the values of the inputs and of the free
symbols, when any values are given for symbols. -/
theorem Resides.replay_close (ht : Resides g inputs outputs tape) (A : Algebra Id V)
    (hgiven : ∀ e n, g.node? e = some n → n.isSymbol = false → given e = none) :
    Id.run ((tape.close inputs.length).replay A
        ((inputs ++ tape.freeSymbols).map (g.evaluate A given)) outputs.length)
      = outputs.map (g.evaluate A given) := by
  obtain ⟨origin, bound, hc, hagree, horigin, -, hin, hout⟩ := ht
  have hbelow : ∀ e : MatrixId, e.index ∈ (scheduleFor origin outputs).computed → e.index < bound :=
    fun e he => Schedule.lt_of_mem_computed (valueOperandNumbers_lt origin) horigin
      (List.forall_mem_map.mpr hout) he
  have hsame : ∀ e : MatrixId, e.index < bound → g.evaluate A given e = origin.evaluate A given e :=
    fun e he => (MatrixGraph.evaluate_congr hagree he).symm
  have hvalues : (inputs ++ tape.freeSymbols).map (g.evaluate A given)
      = (inputs ++ tape.freeSymbols).map (origin.evaluate A given) := by
    refine List.map_congr_left fun e he => hsame e ?_
    rcases List.mem_append.mp he with he | he
    · exact hin e he
    · exact hbelow e (hc.mem_freeSymbols.mp he).1
  rw [hvalues, hc.close.replay_eq]
  refine List.map_congr_left fun e he => ?_
  rw [hsame e (hout e he)]
  refine hc.evaluate_supply (fun e n he hn hsymbol => hgiven e n ?_ hsymbol)
    (Schedule.mem_computed_of_root (valueOperandNumbers_lt origin) hc.roots_lt
      (List.mem_map_of_mem he))
  exact (MatrixGraph.node?_eq_of_agreeBelow hagree (hbelow e he)).symm.trans hn

end MatrixTape

/-! ### Assignments -/

namespace MatrixGraph

variable {V : Type} {A : Algebra Id V} {g h : MatrixGraph} {ρ : MatrixId → Nat → V} {e : MatrixId}

/-- Values for all symbols of a graph, nonzero by nonzero. -/
def assigned (g : MatrixGraph) (ρ : MatrixId → Nat → V) (e : MatrixId) : Option (List V) :=
  if g.isSymbol e then some ((List.range (MatrixTape.patternIn g e).nnz).map (ρ e)) else none

theorem exists_assigned (he : g.isSymbol e = true) : ∃ values, g.assigned ρ e = some values :=
  ⟨_, if_pos he⟩

/-- Symbols keep their values when the graph grows. -/
theorem assigned_of_grows (hgrow : g.Grows h) (he : e.index < g.size) :
    h.assigned ρ e = g.assigned ρ e := by
  have hagree := hgrow.arena.agreeBelow
  rw [assigned, assigned, isSymbol, isSymbol, node?_eq_of_agreeBelow hagree he,
    patternIn_eq_of_agreeBelow hagree he]

/-- A graph admits every assignment of its symbols. -/
theorem admits_assigned (hexact : A.Exact g.folds) : g.Admits A (g.assigned ρ) where
  symbols e n hn hsymbol := by
    refine if_neg ?_
    rw [isSymbol, hn]
    simpa using hsymbol
  fits e values p hvalues hp := by
    rw [assigned] at hvalues
    split at hvalues
    · obtain rfl := Option.some.inj hvalues
      rw [List.length_map, List.length_range, patternIn_eq hp]
    · contradiction
  exact := hexact

end MatrixGraph

end Fluxion
