import Fluxion.Proofs.Scalar.Meaning
import Mathlib.Analysis.SpecialFunctions.Pow.Deriv
import Mathlib.Analysis.SpecialFunctions.Sqrt
import Mathlib.Analysis.SpecialFunctions.Trigonometric.ArctanDeriv
import Mathlib.Analysis.SpecialFunctions.Trigonometric.DerivHyp
import Mathlib.Topology.Algebra.Module.ModuleTopology

/-!
# Derivatives over the real numbers

Derivatives are found by formal rules, which say what the partial derivatives of an operation are in
terms of its operands and of its result. Here the literals and operations are read in the real
numbers, and the rules are held against the limits that derivatives are.

What is proved of an operation is the chain rule: operands that move along differentiable curves give
a result that does, and its derivative is made of theirs by the rules. The partial derivatives are the
case in which one operand moves and the other rests, and the derivative of an expression follows by
going through the graph.

An operation is differentiable on an open domain only. Outside of it the rules still give a number,
and nothing is said of that.

## Main definitions

* `Binary64.toReal` — the real number that a floating-point number is
* `Interpretation.real` — literals and operations in the real numbers
* `UnaryOp.SmoothAt`, `BinaryOp.SmoothAt` — where operations are differentiable

## Main results

* `Interpretation.hasDerivAt_unary`, `Interpretation.hasDerivAt_binary` — the chain rule
* `Interpretation.hasDerivAt_partials` — **the rules give the partial derivatives**
* `ScalarGraph.hasDerivAt_value` — formal derivatives of expressions are derivatives
-/

namespace Fluxion

/-! ### Real numbers -/

/-- The real number that a finite number is. The others are none, and count as zero. -/
noncomputable def Binary64.toReal (x : Binary64) : ℝ :=
  match FloatParts.of x.value with
  | .finite negative mantissa exponent =>
    (if negative then -1 else 1) * (mantissa * (2 : ℝ) ^ exponent)
  | .nan | .infinite _ => 0

namespace Binary64

theorem toReal_of_parts {x : Binary64} {negative : Bool} {mantissa : Nat} {exponent : Int}
    (h : FloatParts.of x.value = .finite negative mantissa exponent) :
    x.toReal = (if negative then -1 else 1) * (mantissa * (2 : ℝ) ^ exponent) := by
  rw [toReal, h]

theorem toReal_zero : (0.0 : Binary64).toReal = 0 := by
  have hparts : FloatParts.of (0.0 : Binary64).value = .finite false 0 (-1074) := by decide
  rw [toReal_of_parts hparts]
  simp

theorem toReal_one : (1.0 : Binary64).toReal = 1 := by
  have hparts : FloatParts.of (1.0 : Binary64).value = .finite false 4503599627370496 (-52) := by
    decide
  rw [toReal_of_parts hparts]
  norm_num

theorem toReal_negOne : (-1.0 : Binary64).toReal = -1 := by
  have hparts : FloatParts.of (-1.0 : Binary64).value = .finite true 4503599627370496 (-52) := by
    decide
  rw [toReal_of_parts hparts]
  norm_num

theorem toReal_half : (0.5 : Binary64).toReal = 1 / 2 := by
  have hparts : FloatParts.of (0.5 : Binary64).value = .finite false 4503599627370496 (-53) := by
    decide
  rw [toReal_of_parts hparts]
  norm_num

end Binary64

/-- Literals and operations in the real numbers. -/
noncomputable def Interpretation.real : Interpretation ℝ where
  literal := Binary64.toReal
  function
    | .neg, x => -x
    | .sqrt, x => Real.sqrt x
    | .sin, x => Real.sin x
    | .cos, x => Real.cos x
    | .tan, x => Real.tan x
    | .exp, x => Real.exp x
    | .log, x => Real.log x
    | .tanh, x => Real.tanh x
  quotient x y := x / y
  power x y := x ^ y
  literal_zero := Binary64.toReal_zero
  literal_one := Binary64.toReal_one
  literal_negOne := Binary64.toReal_negOne
  zero_quotient := zero_div
  quotient_one := div_one
  power_zero := Real.rpow_zero
  power_one := Real.rpow_one

/-! ### Where operations are differentiable -/

/-- The points at which an operation on one operand is differentiable. -/
def UnaryOp.SmoothAt : UnaryOp → ℝ → Prop
  | .sqrt, x | .log, x => 0 < x
  | .tan, x => Real.cos x ≠ 0
  | .neg, _ | .sin, _ | .cos, _ | .exp, _ | .tanh, _ => True

/-- The points at which an operation on two operands is differentiable. -/
def BinaryOp.SmoothAt : BinaryOp → ℝ → ℝ → Prop
  | .div, _, y => y ≠ 0
  | .pow, x, _ => 0 < x
  | .add, _, _ | .sub, _, _ | .mul, _, _ => True

namespace Interpretation

variable {x y : ℝ → ℝ} {x' y' t : ℝ}

/-! ### The rules in the real numbers -/

theorem real_unaryPartial (op : UnaryOp) (x f : ℝ) :
    real.unaryPartial op x f = match op with
      | .neg => -1
      | .sqrt => 1 / 2 / f
      | .sin => Real.cos x
      | .cos => -Real.sin x
      | .tan => 1 + f * f
      | .exp => f
      | .log => 1 / x
      | .tanh => 1 - f * f := by
  rw [← Binary64.toReal_half, ← Binary64.toReal_negOne, ← Binary64.toReal_one]
  cases op <;> rfl

theorem real_binaryPartial (op : BinaryOp) (side : Side) (x y f : ℝ) :
    real.binaryPartial op side x y f = match op, side with
      | .add, _ => 1
      | .sub, .left => 1
      | .sub, .right => -1
      | .mul, .left => y
      | .mul, .right => x
      | .div, .left => 1 / y
      | .div, .right => -(f / y)
      | .pow, .left => y * x ^ (y - 1)
      | .pow, .right => f * Real.log x := by
  rw [← Binary64.toReal_negOne, ← Binary64.toReal_one]
  cases op <;> cases side <;> rfl

/-! ### The chain rule -/

/-- The derivative of the tangent by its value. -/
theorem tan_rule {x : ℝ} (hx : Real.cos x ≠ 0) :
    1 / Real.cos x ^ 2 = 1 + Real.tan x * Real.tan x := by
  rw [← Real.inv_one_add_tan_sq hx, one_div, inv_inv, sq]

theorem hasDerivAt_tanh (x : ℝ) : HasDerivAt Real.tanh (1 - Real.tanh x * Real.tanh x) x := by
  have hcosh : Real.cosh x ≠ 0 := (Real.cosh_pos x).ne'
  have hquotient := (Real.hasDerivAt_sinh x).div (Real.hasDerivAt_cosh x) hcosh
  have htanh : Real.tanh = Real.sinh / Real.cosh := funext Real.tanh_eq_sinh_div_cosh
  rw [htanh]
  refine hquotient.congr_deriv ?_
  rw [Pi.div_apply]
  field_simp

/-- **An operation on one operand** that moves along a curve. -/
theorem hasDerivAt_unary (op : UnaryOp) (hop : op.SmoothAt (x t)) (hx : HasDerivAt x x' t) :
    HasDerivAt (fun t => real.unary op (x t))
      (real.unaryPartial op (x t) (real.unary op (x t)) * x') t := by
  rw [real_unaryPartial]
  cases op with
  | neg => exact hx.neg.congr_deriv (neg_one_mul x').symm
  | sqrt =>
    have hpos : 0 < x t := hop
    refine (hx.sqrt hpos.ne').congr_deriv ?_
    show x' / (2 * Real.sqrt (x t)) = 1 / 2 / Real.sqrt (x t) * x'
    ring
  | sin => exact hx.sin
  | cos => exact hx.cos
  | tan =>
    refine ((Real.hasDerivAt_tan hop).comp t hx).congr_deriv ?_
    rw [tan_rule hop]
    rfl
  | exp => exact hx.exp
  | log =>
    have hpos : 0 < x t := hop
    refine (hx.log hpos.ne').congr_deriv ?_
    show x' / x t = 1 / x t * x'
    ring
  | tanh => exact (hasDerivAt_tanh (x t)).comp t hx

/-- **An operation on two operands** that both move along curves. -/
theorem hasDerivAt_binary (op : BinaryOp) (hop : op.SmoothAt (x t) (y t))
    (hx : HasDerivAt x x' t) (hy : HasDerivAt y y' t) :
    HasDerivAt (fun t => real.binary op (x t) (y t))
      (real.binaryPartial op .left (x t) (y t) (real.binary op (x t) (y t)) * x'
        + real.binaryPartial op .right (x t) (y t) (real.binary op (x t) (y t)) * y') t := by
  rw [real_binaryPartial, real_binaryPartial]
  cases op with
  | add => exact (hx.add hy).congr_deriv (by ring)
  | sub => exact (hx.sub hy).congr_deriv (by ring)
  | mul => exact (hx.mul hy).congr_deriv (by ring)
  | div =>
    have hne : y t ≠ 0 := hop
    refine (hx.div hy hne).congr_deriv ?_
    show (x' * y t - x t * y') / y t ^ 2 = 1 / y t * x' + -(x t / y t / y t) * y'
    field_simp
    ring
  | pow =>
    refine (hx.rpow hy hop).congr_deriv ?_
    show x' * y t * x t ^ (y t - 1) + y' * x t ^ y t * Real.log (x t)
      = y t * x t ^ (y t - 1) * x' + x t ^ y t * Real.log (x t) * y'
    ring

/-! ### Partial derivatives -/

/-- **The rules give the partial derivatives** of every operation, at every point where it is
differentiable: from the operands and the result, the derivative in the one operand, and in each of
two while the other rests. -/
theorem hasDerivAt_partials :
    (∀ (op : UnaryOp) (x : ℝ), op.SmoothAt x →
      HasDerivAt (real.unary op) (real.unaryPartial op x (real.unary op x)) x) ∧
    ∀ (op : BinaryOp) (x y : ℝ), op.SmoothAt x y →
      HasDerivAt (fun t => real.binary op t y)
        (real.binaryPartial op .left x y (real.binary op x y)) x ∧
      HasDerivAt (fun t => real.binary op x t)
        (real.binaryPartial op .right x y (real.binary op x y)) y := by
  refine ⟨fun op x hop => ?_, fun op x y hop => ⟨?_, ?_⟩⟩
  · exact (hasDerivAt_unary op hop (hasDerivAt_id' x)).congr_deriv (mul_one _)
  · refine (hasDerivAt_binary op hop (hasDerivAt_id' x) (hasDerivAt_const x y)).congr_deriv ?_
    rw [mul_one, mul_zero, add_zero]
  · refine (hasDerivAt_binary op hop (hasDerivAt_const y x) (hasDerivAt_id' y)).congr_deriv ?_
    rw [mul_one, mul_zero, zero_add]

/-- The root of 4, and the cube of 2 in its base and in its exponent. -/
theorem hasDerivAt_partials_cube :
    UnaryOp.SmoothAt .sqrt 4 ∧ HasDerivAt Real.sqrt (1 / 4) 4 ∧
      BinaryOp.SmoothAt .pow 2 3 ∧ HasDerivAt (fun t : ℝ => t ^ (3 : ℝ)) 12 2 ∧
      HasDerivAt (fun t : ℝ => (2 : ℝ) ^ t) (8 * Real.log 2) 3 := by
  have hfour : UnaryOp.SmoothAt .sqrt 4 := four_pos
  have htwo : BinaryOp.SmoothAt .pow 2 3 := two_pos
  have hroot : Real.sqrt 4 = 2 := by
    rw [show (4 : ℝ) = 2 ^ 2 by norm_num, Real.sqrt_sq two_pos.le]
  have hcube : (2 : ℝ) ^ (3 : ℝ) = 8 := by
    rw [show (3 : ℝ) = (3 : ℕ) by norm_num, Real.rpow_natCast]
    norm_num
  have hsquare : (2 : ℝ) ^ (3 - 1 : ℝ) = 4 := by
    rw [show (3 - 1 : ℝ) = (2 : ℕ) by norm_num, Real.rpow_natCast]
    norm_num
  refine ⟨hfour, ?_, htwo, ?_, ?_⟩
  · refine (hasDerivAt_partials.1 .sqrt 4 hfour).congr_deriv ?_
    rw [real_unaryPartial]
    show 1 / 2 / Real.sqrt 4 = 1 / 4
    rw [hroot]
    norm_num
  · refine (hasDerivAt_partials.2 .pow 2 3 htwo).1.congr_deriv ?_
    rw [real_binaryPartial]
    show 3 * (2 : ℝ) ^ (3 - 1 : ℝ) = 12
    rw [hsquare]
    norm_num
  · refine (hasDerivAt_partials.2 .pow 2 3 htwo).2.congr_deriv ?_
    rw [real_binaryPartial]
    show (2 : ℝ) ^ (3 : ℝ) * Real.log 2 = 8 * Real.log 2
    rw [hcube]

end Interpretation

/-! ### Expressions -/

/-- The points at which the operation of a node is differentiable, by the values of operands. -/
def ScalarNode.SmoothAt (value : ScalarId → ℝ) : ScalarNode → Prop
  | symbol _ | literal _ => True
  | unary op a => op.SmoothAt (value a)
  | binary op a b => op.SmoothAt (value a) (value b)

namespace ScalarGraph

variable {g : ScalarGraph} {ρ : ℝ → ScalarId → ℝ} {dx : ScalarId → ℝ} {t : ℝ}

/-- **Formal derivatives are derivatives.** If symbols move along curves, an expression moves along one
whose derivative is the formal one, where all operations that it is made of are differentiable. -/
theorem hasDerivAt_value {S : ScalarId → Prop}
    (hclosed : ∀ e n, S e → g.node? e = some n → ∀ a ∈ n.operands, S a)
    (hsmooth : ∀ e n, S e → g.node? e = some n → n.SmoothAt (g.value .real (ρ t)))
    (hρ : ∀ e, HasDerivAt (fun t => ρ t e) (dx e) t) {e : ScalarId} (he : S e) :
    HasDerivAt (fun t => g.value .real (ρ t) e) (g.tangent .real (ρ t) dx e) t := by
  induction e using operands_induction g with
  | step e ih =>
    cases hn : g.node? e with
    | none =>
      simp only [value, evaluate_of_none hn, tangent_of_none hn]
      exact hρ e
    | some n =>
      have hoperand : ∀ a ∈ n.operands,
          HasDerivAt (fun t => g.value .real (ρ t) a) (g.tangent .real (ρ t) dx a) t :=
        fun a ha => ih n hn a ha (hclosed e n he hn a ha)
      have hop := hsmooth e n he hn
      have hvalue : ∀ t, g.value .real (ρ t) e
          = n.apply Interpretation.real.algebra (g.value .real (ρ t)) (ρ t e) :=
        fun t => evaluate_of_node? hn
      rw [tangent_of_node? hn, funext hvalue]
      cases n with
      | symbol serial => exact hρ e
      | literal v => exact hasDerivAt_const t _
      | unary op a =>
        rw [nodeTangent, hvalue]
        exact Interpretation.hasDerivAt_unary op hop
          (hoperand a (by simp [ScalarNode.operands]))
      | binary op a b =>
        rw [nodeTangent, hvalue]
        exact Interpretation.hasDerivAt_binary op hop
          (hoperand a (by simp [ScalarNode.operands]))
          (hoperand b (by simp [ScalarNode.operands]))

end ScalarGraph

end Fluxion
