import Fluxion.Proofs.Jacobian.Scalar
import Fluxion.Proofs.Schedule.Reachability

/-!
# Dependency patterns are reachability

The dependencies of an output are found by a run of the tape over sets. That the run leaves nothing
out is needed for derivatives; that it puts nothing in that does not belong there is needed for
sweeps to be few. Both are said at once here: an entry is where a symbol of the input can be reached
from a node of the output by going from nodes to operands.

The run is over a tape with slots that are written many times, but what a tape computes has been
shown to be what recursion over the graph gives (`ScalarTape.Resides.read_finish`), so it is enough
to look at the recursion: a set that a node has is the union of those of its operands, and only
symbols start with anything.

## Main results

* `ScalarGraph.testBit_evaluate_iff` — sets hold the components of the symbols that are reached
* `ScalarHistory.mem_dependencyPattern_iff` — **dependency patterns are reachability**
-/

namespace Fluxion

open Postorder ScalarTape

namespace ScalarGraph

variable {g : ScalarGraph} {e x : ScalarId} {m : Nat}

theorem reaches_of_none (hn : g.node? e = none) :
    Reaches g.operandNumbers e.index m ↔ e.index = m := by
  have hnone : g.operandNumbers e.index = [] := by
    rw [operandNumbers, operands, show g.node? ⟨e.index⟩ = none from hn]
    rfl
  rw [reaches_iff, hnone]
  simp

/-- A node reaches itself and what its operands reach. -/
theorem reaches_of_node? {n : ScalarNode} (hn : g.node? e = some n) :
    Reaches g.operandNumbers e.index m
      ↔ e.index = m ∨ ∃ a ∈ n.operands, Reaches g.operandNumbers a.index m := by
  have hoperands : g.operandNumbers e.index = n.operands.map ScalarId.index := by
    rw [operandNumbers, operands, show g.node? ⟨e.index⟩ = some n from hn]
    rfl
  rw [reaches_iff, hoperands]
  simp

section

variable {sets : ScalarId → Nat} {j : Nat}

/-- What reaches nothing but itself holds what it starts with. -/
theorem exists_reaches_self (honly : ∀ m, Reaches g.operandNumbers e.index m ↔ e.index = m) :
    (sets e).testBit j = true
      ↔ ∃ x, (sets x).testBit j = true ∧ Reaches g.operandNumbers e.index x.index := by
  constructor
  · exact fun hbit => ⟨e, hbit, .refl⟩
  · rintro ⟨x, hx, hreach⟩
    obtain rfl : e = x := congrArg ScalarId.mk ((honly x.index).mp hreach)
    exact hx

variable (hsymbols : ∀ x, (sets x).testBit j = true → g.isSymbol x = true)

include hsymbols

/-- Of an operation only the operands count, if nothing but symbols starts with anything. -/
theorem exists_reaches_operands {n : ScalarNode} (hn : g.node? e = some n)
    (hoperation : n.isSymbol = false) :
    (∃ x, (sets x).testBit j = true ∧ Reaches g.operandNumbers e.index x.index)
      ↔ ∃ a ∈ n.operands, ∃ x, (sets x).testBit j = true ∧
          Reaches g.operandNumbers a.index x.index := by
  constructor
  · rintro ⟨x, hx, hreach⟩
    rcases (reaches_of_node? hn).mp hreach with heq | ⟨a, ha, hreach⟩
    · obtain rfl : e = x := congrArg ScalarId.mk heq
      have he := hsymbols e hx
      rw [isSymbol, hn, Option.any_some, hoperation] at he
      contradiction
    · exact ⟨a, ha, x, hx, hreach⟩
  · rintro ⟨a, ha, x, hx, hreach⟩
    exact ⟨x, hx, (reaches_of_node? hn).mpr (.inr ⟨a, ha, hreach⟩)⟩

/-- **Sets hold the components of the symbols that are reached**, if nothing else starts with any. -/
theorem testBit_evaluate_iff :
    (g.evaluate dependencyAlgebra sets e).testBit j = true
      ↔ ∃ x, (sets x).testBit j = true ∧ Reaches g.operandNumbers e.index x.index := by
  induction e using operands_induction g with
  | step e ih =>
    rcases hn : g.node? e with _ | n
    · rw [evaluate_of_none hn]
      exact exists_reaches_self fun m => reaches_of_none hn
    · rw [evaluate_of_node? hn]
      have hoperands : ∀ a ∈ n.operands, (g.evaluate dependencyAlgebra sets a).testBit j = true
          ↔ ∃ x, (sets x).testBit j = true ∧ Reaches g.operandNumbers a.index x.index := ih n hn
      cases n with
      | symbol serial =>
        exact exists_reaches_self fun m => by simp [reaches_of_node? hn, ScalarNode.operands]
      | literal v =>
        rw [exists_reaches_operands hsymbols hn rfl]
        simp [ScalarNode.apply, ScalarNode.operands, dependencyAlgebra]
      | unary op a =>
        rw [exists_reaches_operands hsymbols hn rfl]
        have ha := hoperands a (by simp [ScalarNode.operands])
        show (g.evaluate dependencyAlgebra sets a).testBit j = true ↔ _
        rw [ha]
        simp [ScalarNode.operands]
      | binary op a b =>
        rw [exists_reaches_operands hsymbols hn rfl]
        have ha := hoperands a (by simp [ScalarNode.operands])
        have hb := hoperands b (by simp [ScalarNode.operands])
        show (g.evaluate dependencyAlgebra sets a ||| g.evaluate dependencyAlgebra sets b).testBit j
          = true ↔ _
        rw [Nat.testBit_or, Bool.or_eq_true, ha, hb]
        simp [ScalarNode.operands]

end

end ScalarGraph

namespace ScalarTape

variable {inputs : List (SparseMatrix ScalarId)} {x : ScalarId} {i j : Nat}

/-- A symbol starts with component `j` of input `i` exactly if it stands there. -/
theorem testBit_startOf (hdistinct : ((places inputs).map fun p => p.e.index).Nodup) :
    (startOf inputs i x).testBit j = true ↔ ⟨x, i, j⟩ ∈ places inputs := by
  by_cases hx : ∃ p ∈ places inputs, p.e = x
  · obtain ⟨p, hp, rfl⟩ := hx
    rw [startOf_place hdistinct hp]
    constructor
    · intro hbit
      split at hbit
      · rename_i hi
        have hj : p.nonzero = j := by
          rw [dependsOn, Nat.one_shiftLeft, Nat.testBit_two_pow, decide_eq_true_eq] at hbit
          exact hbit
        rwa [← hi, ← hj]
      · simp at hbit
    · intro hmem
      have hsame := List.inj_on_of_nodup_map hdistinct hp hmem rfl
      rw [hsame]
      simp [dependsOn]
  · have hother : ∀ p ∈ places inputs, p.e ≠ x := fun p hp hpx => hx ⟨p, hp, hpx⟩
    rw [startOf_other hother]
    simpa using fun h => hother _ h rfl

end ScalarTape

namespace ScalarHistory

variable {gs : GraphId → Option ScalarGraph} {fs : List ScalarFunction}

/-- **Dependency patterns are reachability.** A row stands for a nonzero of the output, a column for
one of the input, and there is an entry where the symbol in the input is reached from the node in
the output. A function keeps its patterns when it drops its expressions. -/
theorem mem_dependencyPattern_iff (hist : ScalarHistory gs fs) {f : ScalarFunction} (hf : f ∈ fs)
    {e : ScalarFunction.Expressions} {tape : ScalarTape} (hstage : f.stage = .initialized e tape)
    {id : GraphId} {g : ScalarGraph} (hg : gs id = some g) (hlives : f.livesIn g = true) {i o : Nat}
    (hi : i < f.inCount) (ho : o < f.outCount) :
    ∃ p, f.dependencyPattern i o = .ok p ∧
      (∃ f', f.clear = .ok f' ∧ f'.dependencyPattern i o = .ok p) ∧
      p.nrows = (f.outPattern o).nnz ∧ p.ncols = (f.inPattern i).nnz ∧
      ∀ k j, (k, j) ∈ p.positions ↔ k < (f.outPattern o).nnz ∧ j < (f.inPattern i).nnz ∧
        Reaches g.operandNumbers (valueAt e.outputs o k).index (valueAt e.inputs i j).index := by
  have hr := hist.ready hf hstage hg hlives
  obtain ⟨p, hp, hrows, hcols, -⟩ := ScalarFunction.dependencyPattern_eq hr hi ho
  refine ⟨p, hp, ⟨{ f with stage := .cleared tape }, ?_, ?_⟩, hrows, hcols, fun k j => ?_⟩
  · rw [ScalarFunction.clear, hr.tape_eq]
    rfl
  · rw [← hp, ScalarFunction.dependencyPattern, ScalarFunction.dependencyPattern, hr.tape_eq]
    rfl
  · have hmade := ScalarFunction.dependencyPattern_eq_ok hr hi ho
    obtain rfl := Except.ok.inj (hp.symm.trans hmade)
    rw [mem_positions_dependencyPattern, hr.resides.length_dependencies, hr.holds.nnz_outPattern,
      hr.holds.nnz_inPattern]
    refine and_congr_right fun hk => and_congr_right fun hj => ?_
    rw [hr.resides.getD_dependencies (valueAt_mem_places hk), ScalarGraph.testBit_evaluate_iff]
    · simp only [testBit_startOf hr.resides.distinct, mem_places_valueAt]
      constructor
      · rintro ⟨x, ⟨-, rfl⟩, hreach⟩
        exact hreach
      · exact fun hreach => ⟨_, ⟨hj, rfl⟩, hreach⟩
    · exact fun x hx =>
        hr.resides.isSymbol_input ((testBit_startOf hr.resides.distinct).mp hx)

end ScalarHistory

namespace Product

/-- The pattern of a product, which reaches both of its factors. -/
theorem mem_dependencyPattern_iff_product :
    ∃ p, (functionAt (.initialized expressions tape)).dependencyPattern 0 0 = .ok p ∧
      (∃ f', (functionAt (.initialized expressions tape)).clear = .ok f' ∧
        f'.dependencyPattern 0 0 = .ok p) ∧
      p.nrows = 1 ∧ p.ncols = 2 ∧
      ∀ k j, (k, j) ∈ p.positions ↔ k < 1 ∧ j < 2 ∧
        Reaches graph.operandNumbers (valueAt expressions.outputs 0 k).index
          (valueAt expressions.inputs 0 j).index :=
  history.mem_dependencyPattern_iff (List.mem_cons_self ..) rfl
    (show graphs (.numbered 0) = some graph from Function.update_self ..) (by rfl) (by decide)
    (by decide)

end Product

end Fluxion
