import Fluxion.Proofs.Scalar.Checked
import Fluxion.Proofs.Scalar.Derivatives
import Fluxion.Proofs.Scalar.Irreducible

/-!
# Requests for what is there

A graph answers a request for a node that it has with the handle of that node, and stays as it is.
This needs all of irreducibility. The node must not be one that would be folded or left out now, and
it must be found, and under no other handle.

So a tape that runs over its own inputs builds nothing. The run is compared with one without effects,
over an algebra in which every operation is looked up in the graph. That algebra gives every
expression as its own value, and tapes compute the values of expressions.

## Main definitions

* `ScalarGraph.lookup` — operations by what the graph has

## Main results

* `ScalarGraph.Irreducible.unary_eq`, `ScalarGraph.Irreducible.binary_eq` — **requests for what is
  there change nothing**
* `ScalarGraph.Irreducible.evaluate_lookup` — expressions are their own values
* `ScalarTape.Resides.replay_own` — **a tape over its own inputs gives its outputs**
-/

namespace Fluxion

namespace ScalarGraph

variable {g : ScalarGraph} {e a b : ScalarId} {n : ScalarNode}

/-! ### Builders -/

namespace Irreducible

theorem intern_eq (hg : g.Irreducible) (hn : g.node? e = some n)
    (hk : ∀ a ∈ n.operands, a.index < g.nodes.size) : g.intern n hk = (e, g) := by
  obtain ⟨i, hi, rfl⟩ := Option.map_eq_some_iff.mp ((hg.find?_iff n e).mpr hn)
  rw [ScalarGraph.intern]
  split
  · rename_i j hj
    rw [Option.some.inj (hj.symm.trans hi)]
  · rename_i hnone
    cases hnone.symm.trans hi

theorem literal_eq (hg : g.Irreducible) {v : Binary64} (hn : g.node? e = some (.literal v)) :
    ScalarBuilder.literal v g = .ok e g := by
  have hintern : g.literal v = (e, g) := hg.intern_eq hn _
  rw [ScalarBuilder.literal, ScalarBuilder.ofAdd, hintern]

/-- An operation on one operand that is there is neither folded nor the negative of a negative. -/
theorem unary_eq (hg : g.Irreducible) {op : UnaryOp} (hn : g.node? e = some (.unary op a)) :
    ScalarBuilder.unary op a g = .ok e g := by
  obtain ⟨hliteral, hneg⟩ := hg.needed e _ hn
  have hlt := hg.before e _ hn a (List.mem_singleton_self a)
  rw [ScalarBuilder.unary]
  split
  · rename_i hnone
    obtain ⟨m, hm⟩ := has_of_index_lt (Nat.lt_trans hlt (index_lt_of_node? hn))
    cases hnone.symm.trans hm
  · split
    · rename_i x hx _
      exact absurd ⟨x, hx⟩ hliteral
    · rename_i inner hinner _
      exact absurd hinner (hneg rfl inner)
    · rw [hg.intern_eq hn]

/-- An operation on two operands that is there is neither folded nor left out. -/
theorem binary_eq (hg : g.Irreducible) {op : BinaryOp} (hn : g.node? e = some (.binary op a b)) :
    ScalarBuilder.binary op a b g = .ok e g := by
  obtain ⟨hliterals, hshortcut⟩ := hg.needed e _ hn
  have hhas : g.Has a ∧ g.Has b := by
    have hoperands := has_of_mem_operands hn
    exact ⟨hoperands a (by simp [ScalarNode.operands]), hoperands b (by simp [ScalarNode.operands])⟩
  rw [ScalarBuilder.binary]
  split
  · rename_i na nb ha hb
    split
    · rename_i x y hx hy
      have hla : na = .literal x := by cases na <;> simp_all [ScalarNode.literal?]
      have hlb : nb = .literal y := by cases nb <;> simp_all [ScalarNode.literal?]
      exact absurd ⟨⟨x, hla ▸ ha⟩, y, hlb ▸ hb⟩ hliterals
    · rw [hshortcut]
      simp only [hg.intern_eq hn]
  · rename_i hnone
    obtain ⟨⟨na, ha⟩, nb, hb⟩ := hhas
    exact (hnone na nb ha hb).elim

end Irreducible

/-! ### Looking up -/

/-- Operations on handles by what the graph has. Where it has nothing, it does not matter what is
found. -/
def lookup (g : ScalarGraph) : Algebra Id ScalarId where
  constant v := (g.find? (.literal v)).getD .zero
  unary op a := (g.find? (.unary op a)).getD .zero
  binary op a b := (g.find? (.binary op a b)).getD .zero
  isZero e := e == .zero

/-- **Expressions are their own values** when operations are looked up. -/
theorem Irreducible.evaluate_lookup (hg : g.Irreducible) (e : ScalarId) :
    g.evaluate g.lookup id e = e := by
  induction e using operands_induction g with
  | step e ih =>
    cases hn : g.node? e with
    | none => exact evaluate_of_none hn
    | some n =>
      have hfound : (g.find? n).getD .zero = e := by rw [(hg.find?_iff n e).mpr hn]; rfl
      have hvalues : n.apply g.lookup (g.evaluate g.lookup id) (id e) = n.apply g.lookup id e :=
        apply_congr (ih n hn)
      rw [evaluate_of_node? hn, hvalues]
      cases n with
      | symbol serial => rfl
      | literal v => exact hfound
      | unary op a => exact hfound
      | binary op a b => exact hfound

end ScalarGraph

/-! ### Tapes -/

namespace ScalarTape

open ScalarBuilder

variable {g origin : ScalarGraph} {inputs outputs : List (SparseMatrix ScalarId)} {tape : ScalarTape}
  {values : Bundle ScalarId} {freeValues : List ScalarId}

theorem valueOf_lookup (hg : g.Irreducible) {bound : Nat}
    (hagree : ScalarGraph.AgreeBelow origin g bound) {n : Nat} (hn : n < bound) :
    valueOf origin g.lookup id n = ⟨n⟩ :=
  (ScalarGraph.evaluate_congr hagree (e := ⟨n⟩) hn).trans (hg.evaluate_lookup ⟨n⟩)

/-- **One instruction** does to the run what it does when operations are looked up, and nothing to the
graph. -/
theorem exec_instr_eq (hg : g.Irreducible) {bound : Nat}
    (hagree : ScalarGraph.AgreeBelow origin g bound)
    (hbelow : ∀ n ∈ (scheduleFor origin outputs).computed, n < bound) {s : SlottedStep}
    (hs : s ∈ (scheduleFor origin outputs).steps) {r : Run ScalarId}
    (hread : s.arguments.map (r.slots.getD · .zero)
      = (s.step.reads origin.operandNumbers).map (valueOf origin g.lookup id)) :
    exec scalarAlgebra .zero (.ofBundle values) freeValues.toArray r
        (instr origin (inputPlaces origin (places inputs)) (places outputs).toArray
          tape.freeSymbols s) g
      = .ok (execute g.lookup .zero (.ofBundle values) freeValues.toArray r
        (instr origin (inputPlaces origin (places inputs)) (places outputs).toArray
          tape.freeSymbols s)) g := by
  cases hstep : s.step with
  | store root n =>
    rw [instr, hstep]
    rfl
  | compute n =>
    have hlt : n < bound := hbelow n (List.mem_filterMap.mpr ⟨s, hs, by rw [hstep]; rfl⟩)
    have hargument : ∀ k a, (origin.operandNumbers n)[k]? = some a →
        r.read .zero (s.argument k) = ⟨a⟩ := by
      intro k a ha
      rw [hstep, Step.reads] at hread
      have hbefore := operandNumbers_lt origin n a (List.mem_of_getElem? ha)
      exact (SlottedStep.getD_argument hread ha).trans
        (valueOf_lookup hg hagree (Nat.lt_trans hbefore hlt))
    have hsame : g.node? ⟨n⟩ = origin.node? ⟨n⟩ := (hagree ⟨n⟩ hlt).symm
    rw [instr, hstep]
    simp only
    cases hnode : origin.node? ⟨n⟩ with
    | none =>
      cases inputPlace? (inputPlaces origin (places inputs)) ⟨n⟩ <;> rfl
    | some node =>
      have hin : g.node? ⟨n⟩ = some node := hsame.trans hnode
      have hfound : (g.find? node).getD .zero = ⟨n⟩ := by rw [(hg.find?_iff node ⟨n⟩).mpr hin]; rfl
      rw [ScalarGraph.operandNumbers, ScalarGraph.operands, hnode] at hargument
      cases node with
      | symbol serial =>
        cases inputPlace? (inputPlaces origin (places inputs)) ⟨n⟩ <;> rfl
      | literal v =>
        have hvalue : g.lookup.constant v = ⟨n⟩ := hfound
        simp only [execute, hvalue]
        exact bind_of_ok (hg.literal_eq hin)
      | unary op a =>
        have ha := hargument 0 a.index rfl
        have hvalue : g.lookup.unary op a = ⟨n⟩ := hfound
        simp only [exec, execute, ha, hvalue]
        exact bind_of_ok (hg.unary_eq hin)
      | binary op a b =>
        have ha := hargument 0 a.index rfl
        have hb := hargument 1 b.index rfl
        have hvalue : g.lookup.binary op a b = ⟨n⟩ := hfound
        simp only [exec, execute, ha, hb, hvalue]
        exact bind_of_ok (hg.binary_eq hin)

/-- A run that finds what its steps read is a run over what is looked up. -/
theorem foldlM_exec_eq (h : Compiled origin inputs outputs tape) (hg : g.Irreducible) {bound : Nat}
    (hagree : ScalarGraph.AgreeBelow origin g bound)
    (hbelow : ∀ n ∈ (scheduleFor origin outputs).computed, n < bound)
    (hsupplies : Supplies tape inputs id .zero values freeValues) {steps : List SlottedStep}
    (hsteps : ∀ s ∈ steps, s ∈ (scheduleFor origin outputs).steps) {r : Run ScalarId}
    (hfaithful : Schedule.Faithful (Step.reads origin.operandNumbers)
      (valueOf origin g.lookup id) .zero r.slots steps) :
    (steps.map (instr origin (inputPlaces origin (places inputs)) (places outputs).toArray
        tape.freeSymbols)).foldlM
      (exec scalarAlgebra .zero (.ofBundle values) freeValues.toArray) r g
      = .ok ((steps.map (instr origin (inputPlaces origin (places inputs)) (places outputs).toArray
        tape.freeSymbols)).foldl
        (execute g.lookup .zero (.ofBundle values) freeValues.toArray) r) g := by
  induction steps generalizing r with
  | nil => rfl
  | cons s rest ih =>
    obtain ⟨hread, hrest⟩ := hfaithful
    have hs := hsteps s (by simp)
    rw [List.map_cons, List.foldlM_cons, List.foldl_cons,
      bind_of_ok (exec_instr_eq hg hagree hbelow hs hread), execute_instr h hsupplies hs hread]
    exact ih (fun s' hs' => hsteps s' (by simp [hs'])) hrest

/-- Inputs and free symbols stand for themselves. -/
theorem supplies_id (tape : ScalarTape) (inputs : List (SparseMatrix ScalarId)) :
    Supplies tape inputs id .zero (inputs.map SparseMatrix.values) tape.freeSymbols where
  input p hp := by
    obtain ⟨m, hm, he⟩ := mem_places.mp hp
    simp [List.getD_eq_getElem?_getD, hm, he]
  free k e he := by simp [List.getD_eq_getElem?_getD, he]

/-- Replays give the values of expressions of the graph. -/
theorem Resides.replay_eq {W : Type} {A : Algebra Id W} {given : ScalarId → W} {xs : Bundle W}
    {free : List W} (ht : Resides g inputs outputs tape)
    (hsupplies : Supplies tape inputs given (A.constant 0.0) xs free) :
    Id.run (tape.replay A xs free (countsOf outputs))
      = outputs.map fun m => m.values.map (g.evaluate A given) := by
  obtain ⟨origin, bound, hcompiled, hagree, -, -, -, hout⟩ := ht
  rw [hcompiled.replay_eq hsupplies]
  refine List.map_congr_left fun m hm => List.map_congr_left fun e he => ?_
  obtain ⟨i, hi⟩ := List.getElem?_of_mem hm
  obtain ⟨k, hk⟩ := List.getElem?_of_mem he
  exact ScalarGraph.evaluate_congr hagree (hout ⟨e, i, k⟩ (mem_places.mpr ⟨m, hi, hk⟩))

/-- **A tape over its own inputs gives its outputs**, in every irreducible graph that has its
expressions, and builds nothing. -/
theorem Resides.replay_own (ht : Resides g inputs outputs tape) (hg : g.Irreducible) :
    tape.replay scalarAlgebra (inputs.map SparseMatrix.values) tape.freeSymbols (countsOf outputs) g
      = .ok (outputs.map SparseMatrix.values) g := by
  have hzero : g.lookup.constant 0.0 = .zero := by
    change (g.find? (.literal 0.0)).getD .zero = .zero
    rw [(hg.find?_iff _ _).mpr hg.founded.zero]
    rfl
  have hvalues := ht.replay_eq (A := g.lookup) (by rw [hzero]; exact supplies_id tape inputs)
  have hown : outputs.map (fun m => m.values.map (g.evaluate g.lookup id))
      = outputs.map SparseMatrix.values :=
    List.map_congr_left fun m _ =>
      (List.map_congr_left fun e _ => hg.evaluate_lookup e).trans (List.map_id _)
  rw [hown, ScalarTape.replay_eq, finish, hzero] at hvalues
  obtain ⟨origin, bound, hcompiled, hagree, horigin, -, -, hout⟩ := ht
  have hbelow : ∀ n ∈ (scheduleFor origin outputs).computed, n < bound := fun _ hn =>
    Schedule.lt_of_mem_computed (operandNumbers_lt origin) horigin (List.forall_mem_map.mpr hout) hn
  have hfold := foldlM_exec_eq hcompiled hg hagree hbelow (supplies_id tape inputs) (fun _ hs => hs)
    (r := .start .zero tape.workSize (countsOf outputs)) (by
      rw [hcompiled.workSize]
      exact Schedule.faithful_make (operandNumbers_lt origin) hcompiled.roots_lt _ _)
  rw [← hcompiled.instrs] at hfold
  rw [replay, bind_of_ok (x := scalarAlgebra.constant 0.0) (hg.literal_eq hg.founded.zero),
    bind_of_ok hfold, hvalues]
  rfl

end ScalarTape

end Fluxion
