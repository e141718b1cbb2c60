import Fluxion.Proofs.Scalar.Building

/-!
# What builders leave out

A builder may return less than it was asked for: it folds operations on constants, takes the negative
of a negative back, and leaves out operations that have no effect. Over an algebra on a ring this
changes no value, as long as the algebra obeys the laws that are used and the folds on record were
exact. Which laws these are is said here once, for algebras of any kind.

## Main definitions

* `Algebra.Exact` — folds on record were carried out without an error
* `Algebra.OnRing`, `Algebra.Simplifies` — the laws by which operations are left out

## Main results

* `Algebra.Simplifies.shortcut_spec` — what is taken in place of an operation has its value
* `ScalarBuilder.evaluate_unary`, `ScalarBuilder.evaluate_binary` — **builders return expressions with
  the value of the operation**
-/

namespace Fluxion

variable {V : Type}

namespace Algebra

/-- The operation was carried out without an error. -/
def ExactFold (A : Algebra Id V) : Fold → Prop
  | .unary op x => A.constant (op.apply x) = A.unary op (A.constant x)
  | .binary op x y => A.constant (op.apply x y) = A.binary op (A.constant x) (A.constant y)

/-- All these operations were carried out without an error. -/
def Exact (A : Algebra Id V) (folds : List Fold) : Prop := ∀ f ∈ folds, A.ExactFold f

theorem Exact.of_suffix {A : Algebra Id V} {before after : List Fold} (hexact : A.Exact after)
    (hsuffix : before <:+ after) : A.Exact before :=
  fun f hf => hexact f (hsuffix.mem hf)

variable [CommRing V]

/-- Negation, sums, differences and products are those of a commutative ring, the constant zero is its
zero, and zero divided by anything is zero. -/
structure OnRing (A : Algebra Id V) : Prop where
  neg : ∀ x, A.unary .neg x = -x
  add : ∀ x y, A.binary .add x y = x + y
  sub : ∀ x y, A.binary .sub x y = x - y
  mul : ∀ x y, A.binary .mul x y = x * y
  zero : A.constant 0.0 = 0
  zero_div : ∀ x, A.binary .div 0 x = 0

/-- The laws by which scalar builders leave operations out. -/
structure Simplifies (A : Algebra Id V) : Prop extends A.OnRing where
  one : A.constant 1.0 = 1
  div_one : ∀ x, A.binary .div x 1 = x
  pow_zero : ∀ x, A.binary .pow x 0 = 1
  pow_one : ∀ x, A.binary .pow x 1 = x

end Algebra

/-- Interpretations obey the laws. -/
theorem Interpretation.simplifies [CommRing V] (I : Interpretation V) : I.algebra.Simplifies where
  neg _ := rfl
  add _ _ := rfl
  sub _ _ := rfl
  mul _ _ := rfl
  zero := I.literal_zero
  zero_div := I.zero_quotient
  one := I.literal_one
  div_one := I.quotient_one
  pow_zero := I.power_zero
  pow_one := I.power_one

theorem Interpretation.exact_algebra [CommRing V] {I : Interpretation V} {g : ScalarGraph} :
    I.algebra.Exact g.folds ↔ I.Exact g := by
  refine forall₂_congr fun f _ => ?_
  cases f <;> exact Iff.rfl

theorem ScalarGraph.evaluate_grow {A : Algebra Id V} {given : ScalarId → V} {g h : ScalarGraph}
    {e : ScalarId} (hgrow : g.Grows h) (he : g.Has e) :
    h.evaluate A given e = g.evaluate A given e :=
  (evaluate_congr hgrow.agreeBelow he.index_lt).symm

theorem ScalarGraph.evaluate_of_isSymbol {A : Algebra Id V} {given : ScalarId → V}
    {g : ScalarGraph} {e : ScalarId} (he : g.isSymbol e = true) : g.evaluate A given e = given e := by
  rw [isSymbol] at he
  cases hn : g.node? e with
  | none => simp [hn] at he
  | some n =>
    rw [evaluate_of_node? hn]
    cases n with
    | symbol serial => rfl
    | literal | unary | binary => simp [hn, ScalarNode.isSymbol] at he

variable [CommRing V] {A : Algebra Id V} {g : ScalarGraph}

/-! ### Literals -/

theorem ScalarGraph.Founded.evaluate_zero (hg : g.Founded) (hA : A.OnRing) (given : ScalarId → V) :
    g.evaluate A given .zero = 0 :=
  (evaluate_of_node? hg.zero).trans hA.zero

theorem ScalarGraph.Founded.evaluate_one (hg : g.Founded) (hA : A.Simplifies)
    (given : ScalarId → V) : g.evaluate A given .one = 1 :=
  (evaluate_of_node? hg.one).trans hA.one

/-! ### Operations that are left out -/

/-- What stands for an operation that is left out has the value of the operation. -/
theorem Algebra.Simplifies.shortcut_spec (hA : A.Simplifies) (given : ScalarId → V) (hg : g.Founded)
    {op : BinaryOp} {a b : ScalarId} (ha : g.Has a) (hb : g.Has b) {s : Shortcut} (hs : shortcut op a b = some s) :
    match s with
    | .same e => g.Has e ∧ g.evaluate A given e
        = A.binary op (g.evaluate A given a) (g.evaluate A given b)
    | .negated e => g.Has e ∧ -g.evaluate A given e
        = A.binary op (g.evaluate A given a) (g.evaluate A given b) := by
  have hzero := hg.evaluate_zero hA.toOnRing given
  have hone := hg.evaluate_one hA given
  have hhas : g.Has .zero ∧ g.Has .one := ⟨⟨_, hg.zero⟩, ⟨_, hg.one⟩⟩
  cases op with
  | add =>
    simp only [shortcut] at hs
    split at hs
    · rename_i hleft
      cases hs
      exact ⟨hb, by simp [hA.add, hleft, hzero]⟩
    · split at hs
      · rename_i hright
        cases hs
        exact ⟨ha, by simp [hA.add, hright, hzero]⟩
      · cases hs
  | sub =>
    simp only [shortcut] at hs
    split at hs
    · rename_i hright
      cases hs
      exact ⟨ha, by simp [hA.sub, hright, hzero]⟩
    · split at hs
      · rename_i hleft
        cases hs
        exact ⟨hb, by simp [hA.sub, hleft, hzero]⟩
      · split at hs
        · rename_i hsame
          cases hs
          exact ⟨hhas.1, by simp [hA.sub, hsame, hzero]⟩
        · cases hs
  | mul =>
    simp only [shortcut] at hs
    split at hs
    · rename_i hor
      cases hs
      refine ⟨hhas.1, ?_⟩
      rcases hor with hleft | hright
      · simp [hA.mul, hleft, hzero]
      · simp [hA.mul, hright, hzero]
    · split at hs
      · rename_i hleft
        cases hs
        exact ⟨hb, by simp [hA.mul, hleft, hone]⟩
      · split at hs
        · rename_i hright
          cases hs
          exact ⟨ha, by simp [hA.mul, hright, hone]⟩
        · cases hs
  | div =>
    simp only [shortcut] at hs
    split at hs
    · rename_i hleft
      cases hs
      exact ⟨hhas.1, by simp [hleft, hzero, hA.zero_div]⟩
    · split at hs
      · rename_i hright
        cases hs
        exact ⟨ha, by simp [hright, hone, hA.div_one]⟩
      · cases hs
  | pow =>
    simp only [shortcut] at hs
    split at hs
    · rename_i hright
      cases hs
      exact ⟨ha, by simp [hright, hone, hA.pow_one]⟩
    · split at hs
      · rename_i hright
        cases hs
        exact ⟨hhas.2, by simp [hright, hzero, hone, hA.pow_zero]⟩
      · cases hs

namespace ScalarBuilder

/-- **Unary requests** return an expression with the value of the operation. -/
theorem evaluate_unary (hA : A.OnRing) (given : ScalarId → V) (op : UnaryOp) {a : ScalarId}
    (ha : g.Has a) :
    ∃ e h, unary op a g = .ok e h ∧ g.Grows h ∧ h.Has e ∧ (A.Exact h.folds →
      h.evaluate A given e = A.unary op (g.evaluate A given a)) := by
  rcases unary_cases op a g with ⟨hnone, -⟩ | ⟨e, h, hrun, hgrow, hresult⟩
  · obtain ⟨n, hn⟩ := ha
    rw [hn] at hnone
    cases hnone
  · refine ⟨e, h, hrun, hgrow, ?_⟩
    rw [← ScalarGraph.evaluate_grow hgrow ha]
    rcases hresult with ⟨x, hx, he, hfold⟩ | ⟨rfl, hneg⟩ | he
    · refine ⟨⟨_, he⟩, fun hexact => ?_⟩
      rw [ScalarGraph.evaluate_of_node? he, ScalarGraph.evaluate_of_node? (hgrow.node? hx)]
      exact hexact _ hfold
    · have hin := hgrow.node? hneg
      have hlt := ScalarGraph.index_lt_of_mem_operands hin (a := e) (by simp [ScalarNode.operands])
      have hsize := ScalarGraph.index_lt_of_node? hin
      refine ⟨ScalarGraph.has_of_index_lt (Nat.lt_trans hlt hsize), fun _ => ?_⟩
      rw [ScalarGraph.evaluate_of_node? hin, ScalarNode.apply, hA.neg, hA.neg, neg_neg]
    · exact ⟨⟨_, he⟩, fun _ => ScalarGraph.evaluate_of_node? he⟩

/-- **Binary requests** return an expression with the value of the operation. -/
theorem evaluate_binary (hA : A.Simplifies) (hg : g.Founded) (given : ScalarId → V) (op : BinaryOp)
    {a b : ScalarId} (ha : g.Has a) (hb : g.Has b) :
    ∃ e h, binary op a b g = .ok e h ∧ g.Grows h ∧ h.Has e ∧ (A.Exact h.folds →
      h.evaluate A given e
        = A.binary op (g.evaluate A given a) (g.evaluate A given b)) := by
  rcases binary_cases op a b g with ⟨hnone, -⟩ | ⟨e, h, hrun, hgrow, hresult⟩ |
    ⟨c, -, -, hshort, hrun⟩
  · obtain ⟨na, hna⟩ := ha
    obtain ⟨nb, hnb⟩ := hb
    rw [hna, hnb] at hnone
    simp at hnone
  · refine ⟨e, h, hrun, hgrow, ?_⟩
    rw [← ScalarGraph.evaluate_grow hgrow ha, ← ScalarGraph.evaluate_grow hgrow hb]
    rcases hresult with ⟨x, y, hx, hy, he, hfold⟩ | ⟨-, -, rfl, hshort⟩ | he
    · refine ⟨⟨_, he⟩, fun hexact => ?_⟩
      rw [ScalarGraph.evaluate_of_node? he, ScalarGraph.evaluate_of_node? (hgrow.node? hx),
        ScalarGraph.evaluate_of_node? (hgrow.node? hy)]
      exact hexact _ hfold
    · have hspec := hA.shortcut_spec given hg ha hb hshort
      exact ⟨hspec.1, fun _ => hspec.2⟩
    · exact ⟨⟨_, he⟩, fun _ => ScalarGraph.evaluate_of_node? he⟩
  · have hspec := hA.shortcut_spec given hg ha hb hshort
    obtain ⟨e, h, hneg, hgrow, he, hvalue⟩ := evaluate_unary hA.toOnRing given .neg hspec.1
    refine ⟨e, h, hrun.trans hneg, hgrow, he, fun hexact => ?_⟩
    rw [hvalue hexact, hA.neg]
    exact hspec.2

end ScalarBuilder

end Fluxion
