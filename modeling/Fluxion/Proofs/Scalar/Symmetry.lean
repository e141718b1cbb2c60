import Fluxion.Proofs.Scalar.Watched

/-!
# Second derivatives

Dual numbers over dual numbers carry two directions at once, and in their last component the
derivative along one of the derivative along the other. The rules for partial derivatives are
formulas, and nothing says that a formula derived once more gives the same in either order. For most
operations it does. For quotients it does if dividing is multiplying by an inverse, and for powers if
lowering an exponent by one is dividing by the base.

## Main definitions

* `exchange` — the two directions exchanged
* `Interpretation.DividesByInverse` — the law of quotients
* `Algebra.pair` — two algebras side by side

## Main results

* `Interpretation.exchange_unary`, `Interpretation.exchange_binary` — **operations respect the
  exchange**
* `Interpretation.follows_exchange` — and so do watched runs
-/

namespace Fluxion

open DualNumber

/-! ### Two directions -/

/-- The two directions exchanged. -/
def exchange {V : Type} (z : DualNumber (DualNumber V)) : DualNumber (DualNumber V) :=
  dualOf (dualOf z.fst.fst z.snd.fst) (dualOf z.fst.snd z.snd.snd)

section Exchange

variable {V : Type} (z : DualNumber (DualNumber V))

@[simp] theorem fst_fst_exchange : (exchange z).fst.fst = z.fst.fst := rfl

@[simp] theorem snd_fst_exchange : (exchange z).fst.snd = z.snd.fst := rfl

@[simp] theorem fst_snd_exchange : (exchange z).snd.fst = z.fst.snd := rfl

@[simp] theorem snd_snd_exchange : (exchange z).snd.snd = z.snd.snd := rfl

end Exchange

namespace Interpretation

variable {V : Type} [CommRing V] {I : Interpretation V}

/-- Dividing is multiplying by an inverse. -/
def DividesByInverse (I : Interpretation V) : Prop :=
  ∀ x y, I.quotient x y = x * I.quotient 1 y

/-! ### Partial derivatives, derived once more -/

theorem snd_dual_function (op : UnaryOp) (x : DualNumber V) :
    (I.dual.function op x).snd = I.unaryPartial op x.fst (I.function op x.fst) * x.snd := rfl

theorem snd_dual_quotient (x y : DualNumber V) :
    (I.dual.quotient x y).snd = I.quotient (I.literal 1.0) y.fst * x.snd
      + -I.quotient (I.quotient x.fst y.fst) y.fst * y.snd := rfl

theorem snd_dual_power (x y : DualNumber V) :
    (I.dual.power x y).snd = y.fst * I.power x.fst (y.fst - I.literal 1.0) * x.snd
      + I.power x.fst y.fst * I.function .log x.fst * y.snd := rfl

/-- The derivative of a unary operation moves in proportion to the operand. -/
theorem exists_snd_unaryPartial (op : UnaryOp) (x : V) :
    ∃ c, ∀ y : DualNumber V, y.fst = x →
      (I.dual.unaryPartial op y (I.dual.unary op y)).snd = c * y.snd := by
  cases op with
  | neg => exact ⟨0, fun y _ => by rw [zero_mul]; rfl⟩
  | sqrt =>
    refine ⟨-I.quotient (I.quotient (I.literal 0.5) (I.function .sqrt x)) (I.function .sqrt x)
      * I.unaryPartial .sqrt x (I.function .sqrt x), fun y hy => ?_⟩
    subst hy
    change (I.dual.quotient (I.dual.literal 0.5) (I.dual.function .sqrt y)).snd = _
    rw [snd_dual_quotient, snd_dual_function, snd_dual_literal, mul_zero, zero_add, mul_assoc]
    rfl
  | sin =>
    refine ⟨I.unaryPartial .cos x (I.function .cos x), fun y hy => ?_⟩
    subst hy
    rfl
  | cos =>
    refine ⟨-I.unaryPartial .sin x (I.function .sin x), fun y hy => ?_⟩
    subst hy
    change (-I.dual.function .sin y).snd = _
    rw [TrivSqZeroExt.snd_neg, snd_dual_function, neg_mul]
  | tan =>
    refine ⟨2 * I.function .tan x * I.unaryPartial .tan x (I.function .tan x), fun y hy => ?_⟩
    subst hy
    change (I.dual.literal 1.0 + I.dual.function .tan y * I.dual.function .tan y).snd = _
    rw [TrivSqZeroExt.snd_add, snd_dual_literal, snd_mul, snd_dual_function]
    change 0 + (I.function .tan y.fst * _ + _ * I.function .tan y.fst) = _
    ring
  | exp =>
    refine ⟨I.unaryPartial .exp x (I.function .exp x), fun y hy => ?_⟩
    subst hy
    rfl
  | log =>
    refine ⟨-I.quotient (I.quotient (I.literal 1.0) x) x, fun y hy => ?_⟩
    subst hy
    change (I.dual.quotient (I.dual.literal 1.0) y).snd = _
    rw [snd_dual_quotient, snd_dual_literal, mul_zero, zero_add]
    rfl
  | tanh =>
    refine ⟨-(2 * I.function .tanh x * I.unaryPartial .tanh x (I.function .tanh x)),
      fun y hy => ?_⟩
    subst hy
    change (I.dual.literal 1.0 - I.dual.function .tanh y * I.dual.function .tanh y).snd = _
    rw [TrivSqZeroExt.snd_sub, snd_dual_literal, snd_mul, snd_dual_function]
    change 0 - (I.function .tanh y.fst * _ + _ * I.function .tanh y.fst) = _
    ring

/-- The derivatives of a binary operation move in proportion to the operands, and either of them moves
with the other operand as the other one does with its own. -/
theorem exists_snd_binaryPartial (hdiv : I.DividesByInverse) (op : BinaryOp) {x y : V}
    (hpow : op = .pow → I.LowersPower x y) :
    ∃ c d e, ∀ z w : DualNumber V, z.fst = x → w.fst = y →
      (I.dual.binaryPartial op .left z w (I.dual.binary op z w)).snd = c * z.snd + d * w.snd ∧
      (I.dual.binaryPartial op .right z w (I.dual.binary op z w)).snd
        = d * z.snd + e * w.snd := by
  cases op with
  | add => exact ⟨0, 0, 0, fun z w _ _ => by simp only [zero_mul, add_zero]; exact ⟨rfl, rfl⟩⟩
  | sub => exact ⟨0, 0, 0, fun z w _ _ => by simp only [zero_mul, add_zero]; exact ⟨rfl, rfl⟩⟩
  | mul =>
    refine ⟨0, 1, 0, fun z w _ _ => ?_⟩
    simp only [zero_mul, add_zero, zero_add, one_mul]
    exact ⟨rfl, rfl⟩
  | div =>
    refine ⟨0, -I.quotient (I.quotient (I.literal 1.0) y) y,
      2 * I.quotient (I.quotient (I.quotient x y) y) y, fun z w hz hw => ?_⟩
    subst hz hw
    constructor
    · change (I.dual.quotient (I.dual.literal 1.0) w).snd = _
      rw [snd_dual_quotient, snd_dual_literal]
      simp only [mul_zero, zero_mul]
      rfl
    · change (-I.dual.quotient (I.dual.quotient z w) w).snd = _
      rw [TrivSqZeroExt.snd_neg, snd_dual_quotient, snd_dual_quotient]
      change -(I.quotient (I.literal 1.0) w.fst * _ + -I.quotient (I.quotient
        (I.quotient z.fst w.fst) w.fst) w.fst * _) = _
      rw [I.literal_one, hdiv (I.quotient 1 w.fst), hdiv (I.quotient (I.quotient z.fst w.fst) w.fst),
        hdiv (I.quotient z.fst w.fst)]
      ring
  | pow =>
    have hlower : I.power x (y - 1) = I.power x y * I.quotient 1 x := hpow rfl
    refine ⟨y * ((y - 1) * I.power x (y - 1 - 1)),
      I.power x (y - 1) + y * I.power x (y - 1) * I.function .log x,
      I.power x y * I.function .log x * I.function .log x, fun z w hz hw => ?_⟩
    subst hz hw
    constructor
    · change (w * I.dual.power z (w - I.dual.literal 1.0)).snd = _
      rw [snd_mul, snd_dual_power, TrivSqZeroExt.snd_sub, snd_dual_literal]
      change w.fst * ((w.fst - I.literal 1.0) * I.power z.fst (w.fst - I.literal 1.0 - I.literal 1.0)
        * z.snd + I.power z.fst (w.fst - I.literal 1.0) * _ * _) + _ * I.power z.fst
          (w.fst - I.literal 1.0) = _
      rw [I.literal_one]
      ring
    · change (I.dual.power z w * I.dual.function .log z).snd = _
      rw [snd_mul, snd_dual_power, snd_dual_function]
      change I.power z.fst w.fst * (I.quotient (I.literal 1.0) z.fst * z.snd) + _ * I.function .log z.fst
        = _
      rw [I.literal_one, hlower]
      ring

/-! ### Operations respect the exchange -/

theorem exchange_unary (op : UnaryOp) (z : DualNumber (DualNumber V)) :
    exchange (I.dual.dual.unary op z) = I.dual.dual.unary op (exchange z) := by
  obtain ⟨c, hc⟩ := exists_snd_unaryPartial (I := I) op z.fst.fst
  have hfst : ∀ y : DualNumber V,
      (I.dual.unaryPartial op y (I.dual.unary op y)).fst
        = I.unaryPartial op y.fst (I.unary op y.fst) := by
    intro y
    cases op <;> rfl
  ext
  · simp
  · simp [snd_dual_unary, hfst]
  · simp [snd_dual_unary, hfst]
  · rw [snd_snd_exchange, snd_dual_unary, snd_dual_unary, snd_mul, snd_mul, hfst, hfst,
      hc z.fst rfl, hc (exchange z).fst rfl]
    simp only [fst_fst_exchange, snd_fst_exchange, fst_snd_exchange, snd_snd_exchange]
    ring

theorem exchange_binary (hdiv : I.DividesByInverse) (op : BinaryOp) {z w : DualNumber (DualNumber V)}
    (hpow : op = .pow → I.LowersPower z.fst.fst w.fst.fst) :
    exchange (I.dual.dual.binary op z w) = I.dual.dual.binary op (exchange z) (exchange w) := by
  obtain ⟨c, d, e, h⟩ := exists_snd_binaryPartial hdiv op hpow
  have hfst : ∀ (side : Side) (x y : DualNumber V),
      (I.dual.binaryPartial op side x y (I.dual.binary op x y)).fst
        = I.binaryPartial op side x.fst y.fst (I.binary op x.fst y.fst) := by
    intro side x y
    cases op <;> cases side <;> rfl
  ext
  · simp
  · simp [snd_dual_binary, hfst]
  · simp [snd_dual_binary, hfst]
  · obtain ⟨hleft, hright⟩ := h z.fst w.fst rfl rfl
    obtain ⟨hleft', hright'⟩ := h (exchange z).fst (exchange w).fst rfl rfl
    rw [snd_snd_exchange, snd_dual_binary, snd_dual_binary, TrivSqZeroExt.snd_add,
      TrivSqZeroExt.snd_add, snd_mul, snd_mul, snd_mul, snd_mul, hfst, hfst, hfst, hfst, hleft,
      hright, hleft', hright']
    simp only [fst_fst_exchange, snd_fst_exchange, fst_snd_exchange, snd_snd_exchange]
    ring

end Interpretation

/-! ### Side by side -/

/-- Two algebras side by side. -/
def Algebra.pair {V W : Type} (A : Algebra Id V) (B : Algebra Id W) : Algebra Id (V × W) where
  constant c := (A.constant c, B.constant c)
  unary op x := (A.unary op x.1, B.unary op x.2)
  binary op x y := (A.binary op x.1 y.1, B.binary op x.2 y.2)
  isZero := fun _ => false

/-- What is computed side by side is what is computed on each side. -/
theorem ScalarGraph.evaluate_pair {V W : Type} (g : ScalarGraph) (A : Algebra Id V)
    (B : Algebra Id W) (given : ScalarId → V × W) (e : ScalarId) :
    g.evaluate (A.pair B) given e
      = (g.evaluate A (fun x => (given x).1) e, g.evaluate B (fun x => (given x).2) e) := by
  induction e using g.operands_induction with
  | step e ih =>
    rcases hn : g.node? e with _ | n
    · rw [evaluate_of_none hn, evaluate_of_none hn, evaluate_of_none hn]
    · have ih := ih n hn
      rw [evaluate_of_node? hn, evaluate_of_node? hn, evaluate_of_node? hn]
      cases n with
      | symbol serial => rfl
      | literal v => rfl
      | unary op a =>
        rw [ScalarNode.apply, ih a (by simp [ScalarNode.operands])]
        rfl
      | binary op a b =>
        rw [ScalarNode.apply, ih a (by simp [ScalarNode.operands]),
          ih b (by simp [ScalarNode.operands])]
        rfl

namespace Interpretation

variable {V : Type} [CommRing V] {I : Interpretation V}

/-- A value, what it is in two directions, and what it is in the same two exchanged. -/
def Exchanged (x : V) (z : DualNumber (DualNumber V) × DualNumber (DualNumber V)) : Prop :=
  z.1.fst.fst = x ∧ z.2 = exchange z.1

/-- **Watched runs respect the exchange.** -/
theorem follows_exchange (hdiv : I.DividesByInverse) :
    Watched.Follows Exchanged I.watching (I.dual.dual.algebra.pair I.dual.dual.algebra) where
  constant _ := fun _ => ⟨rfl, rfl⟩
  unary op {x z} hz := fun _ => by
    constructor
    · change (I.dual.dual.unary op z.1).fst.fst = I.unary op x
      rw [fst_dual_unary, fst_dual_unary, hz.1]
    · change I.dual.dual.unary op z.2 = _
      rw [hz.2, ← exchange_unary]
      rfl
  binary op {x x' z z'} hz hz' := fun hlawful => by
    constructor
    · change (I.dual.dual.binary op z.1 z'.1).fst.fst = I.binary op x x'
      rw [fst_dual_binary, fst_dual_binary, hz.1, hz'.1]
    · change I.dual.dual.binary op z.2 z'.2 = _
      rw [hz.2, hz'.2, ← exchange_binary hdiv op (hz.1.symm ▸ hz'.1.symm ▸ hlawful)]
      rfl

end Interpretation

end Fluxion
