import Fluxion.Proofs.Expansion.Simulation
import Fluxion.Proofs.Scalar.Compile

/-!
# Two relations that builders keep

Expressions *carry* the values that are computed beside them: as long as the folds on record were
exact, recursion over the graph gives the same value. This holds over every algebra that obeys the
laws by which builders leave operations out.

Expressions also stay *within* the symbols that they are made of. So a function whose outputs were
computed from its inputs has no free symbols.

## Main definitions

* `ScalarGraph.Carries` — an expression has a value over an algebra
* `ScalarGraph.Within` — the symbols below an expression are among given ones

## Main results

* `ScalarGraph.simulates_carries` — **computing on expressions computes their values**
* `ScalarGraph.simulates_within` — no symbol comes in from elsewhere
* `ScalarTape.Compiled.freeSymbols_eq_nil` — tapes of outputs within the inputs are closed
-/

namespace Fluxion

open ScalarBuilder

variable {V : Type} {A : Algebra Id V} {given : ScalarId → V} {g h : ScalarGraph} {e : ScalarId}

/-! ### Values -/

namespace ScalarGraph

/-- The graph has the expression, and its value over the algebra is `v` as long as every fold is
exact. -/
def Carries (g : ScalarGraph) (A : Algebra Id V) (given : ScalarId → V) (e : ScalarId) (v : V) :
    Prop := g.Has e ∧ (A.Exact g.folds → g.evaluate A given e = v)

theorem Carries.grow {v : V} (he : g.Carries A given e v) (hgrow : g.Grows h) :
    h.Carries A given e v :=
  ⟨he.1.grow hgrow, fun hexact =>
    (evaluate_grow hgrow he.1).trans (he.2 (hexact.of_suffix hgrow.folds))⟩

/-- **Computing on expressions computes their values.** -/
theorem simulates_carries [CommRing V] (hA : A.Simplifies) (given : ScalarId → V) :
    Simulates (fun g e v => g.Carries A given e v) A where
  grow hgrow he := he.grow hgrow
  constant g c _ := by
    obtain ⟨hgrow, hn⟩ := g.literal_spec c
    exact ⟨_, _, rfl, hgrow, ⟨_, hn⟩, fun _ => evaluate_of_node? hn⟩
  unary := by
    rintro g a x op ⟨ha, hvalue⟩ -
    obtain ⟨e, h, hrun, hgrow, he, hresult⟩ := evaluate_unary hA.toOnRing given op ha
    refine ⟨e, h, hrun, hgrow, he, fun hexact => ?_⟩
    rw [hresult hexact, hvalue (hexact.of_suffix hgrow.folds)]
  binary := by
    rintro g a b x y op ⟨ha, hx⟩ ⟨hb, hy⟩ hg
    obtain ⟨e, h, hrun, hgrow, he, hresult⟩ := evaluate_binary hA hg given op ha hb
    have hbefore : A.Exact h.folds → A.Exact g.folds := fun hexact =>
      hexact.of_suffix hgrow.folds
    refine ⟨e, h, hrun, hgrow, he, fun hexact => ?_⟩
    rw [hresult hexact, hx (hbefore hexact), hy (hbefore hexact)]

/-! ### Symbols below an expression -/

/-- All symbols that an expression is made of are among those of `S`. -/
inductive Within (g : ScalarGraph) (S : ScalarId → Prop) : ScalarId → Prop
  | symbol {e serial} : g.node? e = some (.symbol serial) → S e → Within g S e
  | literal {e v} : g.node? e = some (.literal v) → Within g S e
  | unary {e op a} : g.node? e = some (.unary op a) → Within g S a → Within g S e
  | binary {e op a b} : g.node? e = some (.binary op a b) → Within g S a → Within g S b →
      Within g S e

namespace Within

variable {S : ScalarId → Prop}

theorem has (he : g.Within S e) : g.Has e := by
  cases he with
  | symbol hn | literal hn | unary hn | binary hn => exact ⟨_, hn⟩

theorem grow (he : g.Within S e) (hgrow : g.Grows h) : h.Within S e := by
  induction he with
  | symbol hn hs => exact .symbol (hgrow.node? hn) hs
  | literal hn => exact .literal (hgrow.node? hn)
  | unary hn _ ih => exact .unary (hgrow.node? hn) ih
  | binary hn _ _ iha ihb => exact .binary (hgrow.node? hn) iha ihb

theorem of_isSymbol (he : g.isSymbol e = true) (hs : S e) : g.Within S e := by
  rw [isSymbol] at he
  cases hn : g.node? e with
  | none => simp [hn] at he
  | some n =>
    cases n with
    | symbol serial => exact .symbol hn hs
    | literal | unary | binary => simp [hn, ScalarNode.isSymbol] at he

theorem of_mem_operands (he : g.Within S e) {a : ScalarId} (ha : a ∈ g.operands e) :
    g.Within S a := by
  cases he with
  | symbol hn | literal hn => simp [operands, hn, ScalarNode.operands] at ha
  | unary hn hwithin =>
    obtain rfl : a = _ := by simpa [operands, hn, ScalarNode.operands] using ha
    exact hwithin
  | binary hn hleft hright =>
    simp only [operands, hn, Option.elim_some, ScalarNode.operands, List.mem_cons,
      List.not_mem_nil, or_false] at ha
    rcases ha with rfl | rfl
    · exact hleft
    · exact hright

/-- What stands for an operation that is left out is an operand or a literal. -/
theorem of_shortcut (hg : g.Founded) {op : BinaryOp} {a b c : ScalarId} (ha : g.Within S a)
    (hb : g.Within S b) (hs : shortcut op a b = some (.same c) ∨ shortcut op a b = some (.negated c)) :
    g.Within S c := by
  have hzero : g.Within S .zero := .literal hg.zero
  have hone : g.Within S .one := .literal hg.one
  have hcases : c = a ∨ c = b ∨ c = .zero ∨ c = .one := by
    cases op <;> simp only [shortcut] at hs <;> grind
  rcases hcases with rfl | rfl | rfl | rfl <;> assumption

end Within

theorem yields_unary_within {S : ScalarId → Prop} (op : UnaryOp) {a : ScalarId}
    (ha : g.Within S a) : Yields (unary op a) g fun e h => h.Within S e := by
  intro _
  rcases unary_cases op a g with ⟨hnone, -⟩ | ⟨e, h, hrun, hgrow, hresult⟩
  · obtain ⟨n, hn⟩ := ha.has
    rw [hn] at hnone
    cases hnone
  · refine ⟨e, h, hrun, hgrow, ?_⟩
    rcases hresult with ⟨x, -, he, -⟩ | ⟨-, hneg⟩ | he
    · exact .literal he
    · exact (ha.of_mem_operands (by simp [operands, hneg, ScalarNode.operands])).grow hgrow
    · exact .unary he (ha.grow hgrow)

theorem yields_binary_within {S : ScalarId → Prop} (op : BinaryOp) {a b : ScalarId}
    (ha : g.Within S a) (hb : g.Within S b) :
    Yields (binary op a b) g fun e h => h.Within S e := by
  intro hg
  rcases binary_cases op a b g with ⟨hnone, -⟩ | ⟨e, h, hrun, hgrow, hresult⟩ |
    ⟨c, -, -, hshort, hrun⟩
  · obtain ⟨na, hna⟩ := ha.has
    obtain ⟨nb, hnb⟩ := hb.has
    rw [hna, hnb] at hnone
    simp at hnone
  · refine ⟨e, h, hrun, hgrow, ?_⟩
    rcases hresult with ⟨x, y, -, -, he, -⟩ | ⟨-, -, rfl, hshort⟩ | he
    · exact .literal he
    · exact .of_shortcut hg ha hb (.inl hshort)
    · exact .binary he (ha.grow hgrow) (hb.grow hgrow)
  · obtain ⟨e, h, hneg, hgrow, he⟩ :=
      yields_unary_within .neg (Within.of_shortcut hg ha hb (.inr hshort)) hg
    exact ⟨e, h, hrun.trans hneg, hgrow, he⟩

/-- **No symbol comes in from elsewhere.** -/
theorem simulates_within (S : ScalarId → Prop) (A : Algebra Id V) :
    Simulates (fun g e _ => g.Within S e) A where
  grow hgrow he := he.grow hgrow
  constant g c _ := by
    obtain ⟨hgrow, hn⟩ := g.literal_spec c
    exact ⟨_, _, rfl, hgrow, .literal hn⟩
  unary op ha := yields_unary_within op ha
  binary op ha hb := yields_binary_within op ha hb

end ScalarGraph

/-! ### Closed tapes -/

namespace ScalarTape

variable {inputs outputs : List (SparseMatrix ScalarId)} {tape : ScalarTape}

/-- A tape has no free symbols if every symbol that it computes is an input. -/
theorem Compiled.freeSymbols_eq_nil_of_inputs (hc : Compiled g inputs outputs tape)
    (hinputs : ∀ n ∈ (scheduleFor g outputs).computed, g.isSymbol ⟨n⟩ = true →
      ∃ q ∈ places inputs, q.e = ⟨n⟩) : tape.freeSymbols = [] := by
  rw [hc.free, List.filter_eq_nil_iff]
  rintro e he
  obtain ⟨n, hn, rfl⟩ := List.mem_map.mp he
  rw [Bool.and_eq_true, not_and, Option.isNone_iff_eq_none]
  intro hsymbol hnone
  obtain ⟨q, hq, heq⟩ := hinputs n hn hsymbol
  have hlt : q.e.index < g.size := heq ▸ (ScalarGraph.has_of_isSymbol hsymbol).index_lt
  rw [← heq, inputPlace?_of_mem hc.distinct hq hlt] at hnone
  cases hnone

/-- A tape whose outputs are made of its inputs has no free symbols. -/
theorem Compiled.freeSymbols_eq_nil (hc : Compiled g inputs outputs tape)
    (houtputs : ∀ p ∈ places outputs, g.Within (fun e => ∃ q ∈ places inputs, q.e = e) p.e) :
    tape.freeSymbols = [] := by
  have hcomputed : ∀ n ∈ (scheduleFor g outputs).computed,
      g.Within (fun e => ∃ q ∈ places inputs, q.e = e) ⟨n⟩ := by
    refine Schedule.forall_mem_computed (operandNumbers_lt g) (fun n hn a ha => ?_) hc.roots_lt
      fun r hr => ?_
    · obtain ⟨b, hb, rfl⟩ := List.mem_map.mp ha
      exact hn.of_mem_operands hb
    · obtain ⟨p, hp, rfl⟩ := List.mem_map.mp hr
      exact houtputs p hp
  refine hc.freeSymbols_eq_nil_of_inputs fun n hn hsymbol => ?_
  cases hcomputed n hn with
  | symbol _ hinput => exact hinput
  | literal hnode | unary hnode | binary hnode =>
    simp [ScalarGraph.isSymbol, hnode, ScalarNode.isSymbol] at hsymbol

end ScalarTape

end Fluxion
