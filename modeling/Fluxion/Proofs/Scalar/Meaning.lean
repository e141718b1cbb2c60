import Fluxion.Expression.Scalar
import Mathlib.Algebra.DualNumber
import Mathlib.Tactic.Ring

/-!
# What scalar expressions mean

An expression of a graph has a value once its symbols have values. The value is found by recursion
over the graph, and the recursion works over any algebra without effects: over numbers, over sets of
inputs, or over a ring.

Rings are what derivatives are stated in. The builders leave out operations that have no effect, and
fold literals; that this changes nothing is true of exact numbers only. So an `Interpretation` reads
the literals and operations in a commutative ring, in such a way that the laws which the builders use
hold, and the folds on record can be required to be exact.

The formal derivative of an expression is found by recursion as well, by the rules for the partial
derivatives of the operations. Value and derivative together are the value over dual numbers, and
these are an interpretation again: whatever holds of values holds of derivatives.

## Main definitions

* `ScalarGraph.evaluate` — the value of an expression over an algebra
* `Interpretation` — exact readings of literals and operations
* `ScalarGraph.value`, `ScalarGraph.tangent` — values, and derivatives along a direction
* `ScalarGraph.partialIn` — derivatives in one symbol
* `Algebra.dual` — values beside derivatives, over any algebra
* `Interpretation.dual` — the interpretation in dual numbers

## Main results

* `ScalarGraph.evaluate_congr` — values are decided by the nodes up to the expression
* `ScalarGraph.evaluate_dual` — values over dual numbers are values and derivatives
* `ScalarGraph.tangent_sum` — derivatives along a direction are sums of derivatives in symbols
-/

namespace Fluxion

/-! ### Values over an algebra -/

/-- The value of a node, given the values of its operands. What is no operation has the value `own`,
literals apart. -/
def ScalarNode.apply {W : Type} (A : Algebra Id W) (value : ScalarId → W) (own : W) :
    ScalarNode → W
  | symbol _ => own
  | literal v => A.constant v
  | unary op a => A.unary op (value a)
  | binary op a b => A.binary op (value a) (value b)

namespace ScalarGraph

variable {W : Type} {g h : ScalarGraph} {A : Algebra Id W} {given : ScalarId → W}

/-- Operands come before their readers. -/
theorem index_lt_of_mem_operands {e a : ScalarId} {n : ScalarNode} (hn : g.node? e = some n)
    (ha : a ∈ n.operands) : a.index < e.index :=
  g.ordered e.index n hn a ha

/-- What holds of an expression as soon as it holds of the operands holds of all expressions. -/
theorem operands_induction (g : ScalarGraph) {P : ScalarId → Prop}
    (step : ∀ e, (∀ n, g.node? e = some n → ∀ a ∈ n.operands, P a) → P e) (e : ScalarId) : P e := by
  have below : ∀ bound, ∀ e : ScalarId, e.index < bound → P e := by
    intro bound
    induction bound with
    | zero => intro e he; omega
    | succ bound ih =>
      intro e he
      refine step e fun n hn a ha => ih a ?_
      have := index_lt_of_mem_operands hn ha
      omega
  exact below (e.index + 1) e (Nat.lt_succ_self _)

/-- The value of an expression. Symbols have the values that are given, and so has a handle that the
graph does not have. -/
def evaluate (g : ScalarGraph) (A : Algebra Id W) (given : ScalarId → W) (e : ScalarId) : W :=
  match _ : g.node? e with
  | some (.literal v) => A.constant v
  | some (.unary op a) => A.unary op (evaluate g A given a)
  | some (.binary op a b) => A.binary op (evaluate g A given a) (evaluate g A given b)
  | _ => given e
termination_by e.index
decreasing_by
  all_goals exact index_lt_of_mem_operands ‹_› (by simp [ScalarNode.operands])

theorem evaluate_of_node? {e : ScalarId} {n : ScalarNode} (hn : g.node? e = some n) :
    g.evaluate A given e = n.apply A (g.evaluate A given) (given e) := by
  rw [evaluate]
  cases n <;> split <;> simp_all [ScalarNode.apply]

theorem evaluate_of_none {e : ScalarId} (hn : g.node? e = none) :
    g.evaluate A given e = given e := by
  rw [evaluate]
  split <;> simp_all

/-- The value of a node depends on the values of its operands only. -/
theorem apply_congr {n : ScalarNode} {value value' : ScalarId → W} {own : W}
    (h : ∀ a ∈ n.operands, value a = value' a) : n.apply A value own = n.apply A value' own := by
  cases n with
  | symbol _ | literal _ => rfl
  | unary op a => simp [ScalarNode.apply, h a (by simp [ScalarNode.operands])]
  | binary op a b =>
    simp [ScalarNode.apply, h a (by simp [ScalarNode.operands]),
      h b (by simp [ScalarNode.operands])]

/-- Two graphs have the same nodes below `bound`. -/
def AgreeBelow (g h : ScalarGraph) (bound : Nat) : Prop :=
  ∀ e : ScalarId, e.index < bound → g.node? e = h.node? e

/-- **Locality.** Values are decided by the nodes up to the expression. -/
theorem evaluate_congr {bound : Nat} (hagree : AgreeBelow g h bound) {e : ScalarId}
    (he : e.index < bound) : g.evaluate A given e = h.evaluate A given e := by
  induction e using operands_induction g with
  | step e ih =>
    have hsame := hagree e he
    cases hn : g.node? e with
    | none => rw [evaluate_of_none hn, evaluate_of_none (hsame ▸ hn)]
    | some n =>
      rw [evaluate_of_node? hn, evaluate_of_node? (hsame ▸ hn)]
      refine apply_congr fun a ha => ih n hn a ha ?_
      have := index_lt_of_mem_operands hn ha
      omega

end ScalarGraph

/-! ### Interpretations -/

/-- A reading of literals and operations in a commutative ring. Negation, sums, differences and
products are those of the ring, and the others obey the laws by which the builders leave operations
out. -/
structure Interpretation (V : Type) [CommRing V] where
  literal : Binary64 → V
  function : UnaryOp → V → V
  quotient : V → V → V
  power : V → V → V
  literal_zero : literal 0.0 = 0
  literal_one : literal 1.0 = 1
  literal_negOne : literal (-1.0) = -1
  zero_quotient : ∀ x, quotient 0 x = 0
  quotient_one : ∀ x, quotient x 1 = x
  power_zero : ∀ x, power x 0 = 1
  power_one : ∀ x, power x 1 = x

namespace Interpretation

variable {V : Type} [CommRing V]

/-- The value of an operation on one operand. -/
def unary (I : Interpretation V) : UnaryOp → V → V
  | .neg, x => -x
  | op, x => I.function op x

/-- The value of an operation on two operands. -/
def binary (I : Interpretation V) : BinaryOp → V → V → V
  | .add, x, y => x + y
  | .sub, x, y => x - y
  | .mul, x, y => x * y
  | .div, x, y => I.quotient x y
  | .pow, x, y => I.power x y

/-- The algebra of the ring. -/
def algebra (I : Interpretation V) : Algebra Id V where
  constant := I.literal
  unary := I.unary
  binary := I.binary
  isZero := fun _ => false

/-- The derivative of `op` at `x`, where `f` is the result. -/
def unaryPartial (I : Interpretation V) (op : UnaryOp) (x f : V) : V :=
  Id.run (Fluxion.unaryPartial I.algebra op x f)

/-- The derivative of `op` at `x` and `y` in one of them, where `f` is the result. -/
def binaryPartial (I : Interpretation V) (op : BinaryOp) (side : Side) (x y f : V) : V :=
  Id.run (Fluxion.binaryPartial I.algebra op side x y f)

/-- The operation was carried out without an error. -/
def ExactFold (I : Interpretation V) : Fold → Prop
  | .unary op x => I.literal (op.apply x) = I.unary op (I.literal x)
  | .binary op x y => I.literal (op.apply x y) = I.binary op (I.literal x) (I.literal y)

/-- Every constant that a graph has folded was folded without an error. -/
def Exact (I : Interpretation V) (g : ScalarGraph) : Prop := ∀ f ∈ g.folds, I.ExactFold f

end Interpretation

/-! ### Values and derivatives -/

namespace ScalarGraph

variable {V : Type} [CommRing V] {g h : ScalarGraph} {I : Interpretation V} {ρ : ScalarId → V}

/-- The value of an expression when its symbols have the values `ρ`. -/
def value (g : ScalarGraph) (I : Interpretation V) (ρ : ScalarId → V) (e : ScalarId) : V :=
  g.evaluate I.algebra ρ e

/-- The derivative of an expression when the symbols move in the direction `dx`. Symbols that `dx`
does not move are constants. -/
def tangent (g : ScalarGraph) (I : Interpretation V) (ρ dx : ScalarId → V) (e : ScalarId) : V :=
  match _ : g.node? e with
  | some (.literal _) => 0
  | some (.unary op a) =>
    I.unaryPartial op (g.value I ρ a) (g.value I ρ e) * tangent g I ρ dx a
  | some (.binary op a b) =>
    I.binaryPartial op .left (g.value I ρ a) (g.value I ρ b) (g.value I ρ e)
        * tangent g I ρ dx a
      + I.binaryPartial op .right (g.value I ρ a) (g.value I ρ b) (g.value I ρ e)
        * tangent g I ρ dx b
  | _ => dx e
termination_by e.index
decreasing_by
  all_goals exact index_lt_of_mem_operands ‹_› (by simp [ScalarNode.operands])

/-- The direction that moves one symbol. -/
def unit (x : ScalarId) (e : ScalarId) : V := if e = x then 1 else 0

/-- The formal partial derivative of an expression in a symbol. -/
def partialIn (g : ScalarGraph) (I : Interpretation V) (ρ : ScalarId → V) (x e : ScalarId) : V :=
  g.tangent I ρ (unit x) e

/-- The derivative of a node, given the values and the derivatives of its operands. -/
def nodeTangent (g : ScalarGraph) (I : Interpretation V) (ρ derivative : ScalarId → V) (own : V)
    (e : ScalarId) : ScalarNode → V
  | .symbol _ => own
  | .literal _ => 0
  | .unary op a => I.unaryPartial op (g.value I ρ a) (g.value I ρ e) * derivative a
  | .binary op a b =>
    I.binaryPartial op .left (g.value I ρ a) (g.value I ρ b) (g.value I ρ e) * derivative a
      + I.binaryPartial op .right (g.value I ρ a) (g.value I ρ b) (g.value I ρ e)
        * derivative b

theorem tangent_of_node? {dx : ScalarId → V} {e : ScalarId} {n : ScalarNode}
    (hn : g.node? e = some n) :
    g.tangent I ρ dx e = g.nodeTangent I ρ (g.tangent I ρ dx) (dx e) e n := by
  rw [tangent]
  cases n <;> split <;> simp_all [nodeTangent]

theorem tangent_of_none {dx : ScalarId → V} {e : ScalarId} (hn : g.node? e = none) :
    g.tangent I ρ dx e = dx e := by
  rw [tangent]
  split <;> simp_all

/-- **Superposition.** A derivative along a direction is the sum of those along its parts. -/
theorem tangent_sum {ι : Type} (directions : List ι) (dx : ι → ScalarId → V) (e : ScalarId) :
    g.tangent I ρ (fun x => (directions.map (dx · x)).sum) e
      = (directions.map fun i => g.tangent I ρ (dx i) e).sum := by
  induction e using operands_induction g with
  | step e ih =>
    cases hn : g.node? e with
    | none => simp only [tangent_of_none hn]
    | some n =>
      simp only [tangent_of_node? hn]
      cases n with
      | symbol serial => rfl
      | literal v => simp [nodeTangent]
      | unary op a =>
        simp only [nodeTangent]
        rw [ih _ hn a (by simp [ScalarNode.operands]), List.sum_map_mul_left]
      | binary op a b =>
        simp only [nodeTangent]
        rw [ih _ hn a (by simp [ScalarNode.operands]), ih _ hn b (by simp [ScalarNode.operands]),
          List.sum_map_add, List.sum_map_mul_left, List.sum_map_mul_left]

end ScalarGraph

/-! ### Dual numbers -/

/-- A value together with a derivative. -/
def dualOf {V : Type} (x dx : V) : DualNumber V := (x, dx)

@[simp] theorem fst_dualOf {V : Type} (x dx : V) : (dualOf x dx).fst = x := rfl

@[simp] theorem snd_dualOf {V : Type} (x dx : V) : (dualOf x dx).snd = dx := rfl

namespace Algebra

/-- The derivative of `op` at `x`, where `f` is the result. -/
def unarySlope {V : Type} (A : Algebra Id V) (op : UnaryOp) (x f : V) : V :=
  Id.run (unaryPartial A op x f)

/-- The derivative of `op` at `x` and `y` in one of them, where `f` is the result. -/
def binarySlope {V : Type} (A : Algebra Id V) (op : BinaryOp) (side : Side) (x y f : V) : V :=
  Id.run (binaryPartial A op side x y f)

/-- Values beside derivatives, over any algebra without effects. The derivative of a result is made
of products and sums of the algebra, by the rules for partial derivatives. -/
def dual {V : Type} (A : Algebra Id V) : Algebra Id (DualNumber V) where
  constant v := dualOf (A.constant v) (A.constant 0.0)
  unary op x :=
    dualOf (A.unary op x.fst) (A.binary .mul (A.unarySlope op x.fst (A.unary op x.fst)) x.snd)
  binary op x y :=
    dualOf (A.binary op x.fst y.fst)
      (A.binary .add
        (A.binary .mul (A.binarySlope op .left x.fst y.fst (A.binary op x.fst y.fst)) x.snd)
        (A.binary .mul (A.binarySlope op .right x.fst y.fst (A.binary op x.fst y.fst)) y.snd))
  isZero _ := false

/-- What sweeps ask of an algebra on a commutative ring: sums and products are those of the ring, the
constant zero is its zero, and nothing else is known to be zero. The other operations may be
anything. -/
structure Differentiates {V : Type} [CommRing V] (A : Algebra Id V) : Prop where
  add : ∀ x y, A.binary .add x y = x + y
  mul : ∀ x y, A.binary .mul x y = x * y
  zero : A.constant 0.0 = 0
  eq_zero : ∀ v, A.isZero v = true → v = 0

namespace Differentiates

variable {V : Type} [CommRing V] {A : Algebra Id V}

theorem dual_zero (hA : A.Differentiates) : A.dual.constant 0.0 = 0 := by
  have hpair : A.dual.constant 0.0 = dualOf (A.constant 0.0) (A.constant 0.0) := rfl
  rw [hpair, hA.zero]
  rfl

theorem snd_dual_constant (hA : A.Differentiates) (v : Binary64) :
    (A.dual.constant v).snd = 0 := hA.zero

theorem snd_dual_unary (hA : A.Differentiates) (op : UnaryOp) (x : DualNumber V) :
    (A.dual.unary op x).snd = A.unarySlope op x.fst (A.unary op x.fst) * x.snd := hA.mul _ _

theorem snd_dual_binary (hA : A.Differentiates) (op : BinaryOp) (x y : DualNumber V) :
    (A.dual.binary op x y).snd
      = A.binarySlope op .left x.fst y.fst (A.binary op x.fst y.fst) * x.snd
        + A.binarySlope op .right x.fst y.fst (A.binary op x.fst y.fst) * y.snd :=
  (hA.add _ _).trans (congrArg₂ (· + ·) (hA.mul _ _) (hA.mul _ _))

end Differentiates

end Algebra

namespace Interpretation

variable {V : Type} [CommRing V] {I : Interpretation V}

theorem binaryPartial_div_right (x y f : V) :
    I.binaryPartial .div .right x y f = -I.quotient f y := rfl

theorem binaryPartial_div_left (x y f : V) :
    I.binaryPartial .div .left x y f = I.quotient (I.literal 1.0) y := rfl

theorem binaryPartial_pow_left (x y f : V) :
    I.binaryPartial .pow .left x y f = y * I.power x (y - I.literal 1.0) := rfl

/-- Operations on dual numbers: the derivative of the result is found by the rules for partial
derivatives. -/
def dual (I : Interpretation V) : Interpretation (DualNumber V) where
  literal v := dualOf (I.literal v) 0
  function op x :=
    dualOf (I.function op x.fst) (I.unaryPartial op x.fst (I.function op x.fst) * x.snd)
  quotient x y :=
    dualOf (I.quotient x.fst y.fst)
      (I.binaryPartial .div .left x.fst y.fst (I.quotient x.fst y.fst) * x.snd
        + I.binaryPartial .div .right x.fst y.fst (I.quotient x.fst y.fst) * y.snd)
  power x y :=
    dualOf (I.power x.fst y.fst)
      (I.binaryPartial .pow .left x.fst y.fst (I.power x.fst y.fst) * x.snd
        + I.binaryPartial .pow .right x.fst y.fst (I.power x.fst y.fst) * y.snd)
  literal_zero := by
    rw [I.literal_zero]
    rfl
  literal_one := by
    rw [I.literal_one]
    rfl
  literal_negOne := by
    rw [I.literal_negOne]
    ext
    · rfl
    · simp
  zero_quotient x := by
    ext
    · simp [I.zero_quotient]
    · simp [I.zero_quotient, binaryPartial_div_right]
  quotient_one x := by
    ext
    · simp [I.quotient_one]
    · simp [I.quotient_one, I.literal_one, binaryPartial_div_left]
  power_zero x := by
    ext
    · simp [I.power_zero]
    · simp [binaryPartial_pow_left]
  power_one x := by
    ext
    · simp [I.power_one]
    · simp [I.power_zero, I.literal_one, binaryPartial_pow_left]

/-- The algebra of dual numbers. -/
abbrev dualAlgebra (I : Interpretation V) : Algebra Id (DualNumber V) := I.dual.algebra

/-- The algebra of dual numbers over dual numbers, whose values carry second derivatives. -/
abbrev secondAlgebra (I : Interpretation V) : Algebra Id (DualNumber (DualNumber V)) :=
  I.dual.dual.algebra

@[simp] theorem fst_dual_literal (v : Binary64) : (I.dual.literal v).fst = I.literal v := rfl

@[simp] theorem snd_dual_literal (v : Binary64) : (I.dual.literal v).snd = 0 := rfl

@[simp] theorem fst_dual_unary (op : UnaryOp) (x : DualNumber V) :
    (I.dual.unary op x).fst = I.unary op x.fst := by
  cases op <;> rfl

theorem snd_dual_unary (op : UnaryOp) (x : DualNumber V) :
    (I.dual.unary op x).snd = I.unaryPartial op x.fst (I.unary op x.fst) * x.snd := by
  cases op
  case neg =>
    have hpartial : ∀ x f : V, I.unaryPartial .neg x f = I.literal (-1.0) := fun _ _ => rfl
    rw [hpartial, I.literal_negOne, Interpretation.unary, TrivSqZeroExt.snd_neg, neg_one_mul]
  all_goals rfl

@[simp] theorem fst_dual_binary (op : BinaryOp) (x y : DualNumber V) :
    (I.dual.binary op x y).fst = I.binary op x.fst y.fst := by
  cases op <;> rfl

theorem snd_dual_binary (op : BinaryOp) (x y : DualNumber V) :
    (I.dual.binary op x y).snd
      = I.binaryPartial op .left x.fst y.fst (I.binary op x.fst y.fst) * x.snd
        + I.binaryPartial op .right x.fst y.fst (I.binary op x.fst y.fst) * y.snd := by
  cases op with
  | add =>
    have hpartial : ∀ side (x y f : V), I.binaryPartial .add side x y f = I.literal 1.0 :=
      fun _ _ _ _ => rfl
    rw [hpartial, hpartial, I.literal_one, one_mul, one_mul]
    rfl
  | sub =>
    have hleft : ∀ x y f : V, I.binaryPartial .sub .left x y f = I.literal 1.0 := fun _ _ _ => rfl
    have hright : ∀ x y f : V, I.binaryPartial .sub .right x y f = I.literal (-1.0) :=
      fun _ _ _ => rfl
    rw [hleft, hright, I.literal_one, I.literal_negOne, one_mul, neg_one_mul, ← sub_eq_add_neg]
    rfl
  | mul =>
    have hleft : ∀ x y f : V, I.binaryPartial .mul .left x y f = y := fun _ _ _ => rfl
    have hright : ∀ x y f : V, I.binaryPartial .mul .right x y f = x := fun _ _ _ => rfl
    rw [hleft, hright, Interpretation.binary, DualNumber.snd_mul]
    ring
  | div | pow => rfl

variable (I) in
theorem differentiates : I.algebra.Differentiates where
  add _ _ := rfl
  mul _ _ := rfl
  zero := I.literal_zero
  eq_zero _ hzero := nomatch hzero

/-- The two ways to dual numbers are one. -/
theorem dualAlgebra_eq : I.dualAlgebra = I.algebra.dual := by
  have hconstant : I.dual.literal = I.algebra.dual.constant := by
    funext v
    ext
    · rfl
    · exact (I.differentiates.snd_dual_constant v).symm
  have hunary : I.dual.unary = I.algebra.dual.unary := by
    funext op x
    ext
    · exact fst_dual_unary op x
    · exact (snd_dual_unary op x).trans (I.differentiates.snd_dual_unary op x).symm
  have hbinary : I.dual.binary = I.algebra.dual.binary := by
    funext op x y
    ext
    · exact fst_dual_binary op x y
    · exact (snd_dual_binary op x y).trans (I.differentiates.snd_dual_binary op x y).symm
  rw [dualAlgebra, algebra, hconstant, hunary, hbinary]
  rfl

/-- A fold that is exact in the ring is exact in dual numbers, since literals are constants. -/
theorem ExactFold.dual {f : Fold} (hexact : I.ExactFold f) : I.dual.ExactFold f := by
  cases f with
  | unary op x =>
    ext
    · simpa [ExactFold] using hexact
    · simp [snd_dual_unary]
  | binary op x y =>
    ext
    · simpa [ExactFold] using hexact
    · simp [snd_dual_binary]

theorem Exact.dual {g : ScalarGraph} (h : I.Exact g) : I.dual.Exact g := fun f hf => (h f hf).dual

end Interpretation

namespace ScalarGraph

variable {V : Type} [CommRing V] {g : ScalarGraph} {I : Interpretation V} {ρ dx : ScalarId → V}

/-- **Dual numbers.** The value of an expression over dual numbers is its value together with its
derivative. -/
theorem evaluate_dual (e : ScalarId) :
    g.value I.dual (fun x => dualOf (ρ x) (dx x)) e
      = dualOf (g.value I ρ e) (g.tangent I ρ dx e) := by
  induction e using operands_induction g with
  | step e ih =>
    cases hn : g.node? e with
    | none => simp only [value, evaluate_of_none hn, tangent_of_none hn]
    | some n =>
      have hvalue : g.value I ρ e = n.apply I.algebra (g.value I ρ) (ρ e) :=
        evaluate_of_node? hn
      have hdual : g.value I.dual (fun x => dualOf (ρ x) (dx x)) e
          = n.apply I.dual.algebra (g.value I.dual fun x => dualOf (ρ x) (dx x))
            (dualOf (ρ e) (dx e)) := evaluate_of_node? hn
      rw [hdual, tangent_of_node? hn]
      cases n with
      | symbol serial => rw [hvalue]; rfl
      | literal v => rw [hvalue]; rfl
      | unary op a =>
        have ha := ih _ hn a (by simp [ScalarNode.operands])
        have hunary : g.value I ρ e = I.unary op (g.value I ρ a) := hvalue
        change I.dual.unary op (g.value I.dual _ a) = _
        rw [ha]
        ext
        · simp [hunary]
        · simp [Interpretation.snd_dual_unary, nodeTangent, hunary]
      | binary op a b =>
        have ha := ih _ hn a (by simp [ScalarNode.operands])
        have hb := ih _ hn b (by simp [ScalarNode.operands])
        have hbinary : g.value I ρ e = I.binary op (g.value I ρ a) (g.value I ρ b) := hvalue
        change I.dual.binary op (g.value I.dual _ a) (g.value I.dual _ b) = _
        rw [ha, hb]
        ext
        · simp [hbinary]
        · simp [Interpretation.snd_dual_binary, nodeTangent, hbinary]

end ScalarGraph

end Fluxion
