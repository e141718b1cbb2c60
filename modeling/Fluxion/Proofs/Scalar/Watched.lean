import Fluxion.Proofs.Lists
import Fluxion.Proofs.Scalar.Meaning
import Fluxion.Proofs.Scalar.Runs
import Fluxion.Proofs.Pattern.Positions

/-!
# Runs that are watched

Some statements hold of a run only if all operations of a kind that it performs obey a law at the
operands that they meet. So a run can be *watched*: it computes what it would compute anyway, and
beside that the statement that the law held wherever it was asked for.

Powers are watched here. Deriving a power twice, in its base and in its exponent, gives the same in
either order if lowering the exponent by one is dividing by the base.

## Main definitions

* `Watched` — a value, and whether the law held on the way to it
* `Watched.Ensures` — what is known of the value if it did
* `Interpretation.LowersPower`, `Interpretation.watching` — the law of powers, and runs that watch it
* `Watched.Follows` — an algebra without effects that keeps step while the law holds

## Main results

* `Watched.Ensures.bind`, `Watched.Ensures.foldlM`, `Watched.Ensures.mapM` — watched steps one after
  another
* `ScalarTape.ensures_replay` — **a run keeps step while the law holds**
-/

namespace Fluxion

/-- A value, and whether a law held wherever it was asked for on the way to it. -/
structure Watched (α : Type) where
  value : α
  lawful : Prop

namespace Watched

instance : Monad Watched where
  pure a := ⟨a, True⟩
  bind x f := ⟨(f x.value).value, x.lawful ∧ (f x.value).lawful⟩

instance : LawfulMonad Watched := .mk' Watched
  (fun x => congrArg (mk x.value) (and_true x.lawful))
  (fun a f => congrArg (mk (f a).value) (true_and (f a).lawful))
  (fun x f g => congrArg (mk (g (f x.value).value).value) (propext and_assoc))

variable {α β σ τ ι κ : Type}

/-- If the law held, the value has a property. -/
def Ensures (x : Watched α) (Q : α → Prop) : Prop := x.lawful → Q x.value

theorem ensures_pure {a : α} {Q : α → Prop} (h : Q a) : Ensures (pure a) Q := fun _ => h

theorem Ensures.bind {x : Watched α} {f : α → Watched β} {Q : α → Prop} {R : β → Prop}
    (hx : x.Ensures Q) (hf : ∀ a, Q a → (f a).Ensures R) : (x >>= f).Ensures R :=
  fun h => hf _ (hx h.1) h.2

theorem Ensures.imp {x : Watched α} {Q R : α → Prop} (hx : x.Ensures Q) (himp : ∀ a, Q a → R a) :
    x.Ensures R :=
  fun h => himp _ (hx h)

/-- A loop over items that correspond keeps a relation between its state and that of a loop without
effects. -/
theorem Ensures.foldlM {E : ι → κ → Prop} {R : σ → τ → Prop} {f : σ → ι → Watched σ}
    {p : τ → κ → τ} (step : ∀ s t i j, R s t → E i j → (f s i).Ensures fun s' => R s' (p t j))
    {items : List ι} {items' : List κ} (hitems : List.Forall₂ E items items') {s : σ} {t : τ}
    (hst : R s t) : (items.foldlM f s).Ensures fun s' => R s' (items'.foldl p t) := by
  induction hitems generalizing s t with
  | nil => exact ensures_pure hst
  | cons hij _ ih =>
    rw [List.foldlM_cons]
    exact (step _ _ _ _ hst hij).bind fun s' hs' => ih hs'

theorem Ensures.mapM {E : ι → κ → Prop} {R : α → β → Prop} {f : ι → Watched α} {p : κ → β}
    (step : ∀ i j, E i j → (f i).Ensures fun a => R a (p j))
    {items : List ι} {items' : List κ} (hitems : List.Forall₂ E items items') :
    (items.mapM f).Ensures fun as => List.Forall₂ R as (items'.map p) := by
  induction hitems with
  | nil =>
    rw [List.mapM_nil]
    exact ensures_pure .nil
  | cons hij _ ih =>
    rw [List.mapM_cons]
    exact (step _ _ hij).bind fun a ha => ih.bind fun as has => ensures_pure (.cons ha has)

/-! ### Algebras in step -/

variable {V W : Type} {A : Algebra Watched V} {B : Algebra Id W} {R : V → W → Prop}

/-- As long as the law holds, operations keep a relation to those of an algebra without effects. -/
structure Follows (R : V → W → Prop) (A : Algebra Watched V) (B : Algebra Id W) : Prop where
  constant : ∀ c, (A.constant c).Ensures fun x => R x (B.constant c)
  unary : ∀ op {x y}, R x y → (A.unary op x).Ensures fun z => R z (B.unary op y)
  binary : ∀ op {x x' y y'}, R x y → R x' y' →
    (A.binary op x x').Ensures fun z => R z (B.binary op y y')

end Watched

open Watched

/-! ### Scalar tapes -/

namespace ScalarTape

variable {V W : Type} {A : Algebra Watched V} {B : Algebra Id W} {R : V → W → Prop} {zero : V}
  {zero' : W}

/-- One instruction keeps two runs in step while the law holds. -/
theorem ensures_exec (hR : Watched.Follows R A B) {inputs : Grid V} {inputs' : Grid W}
    (hinputs : ∀ i k, R (inputs.read zero i k) (inputs'.read zero' i k)) {free : Array V}
    {free' : Array W} (hfree : ∀ k, R (free.getD k zero) (free'.getD k zero')) {r : Run V}
    {q : Run W} (hrq : r.Related R zero zero' q) (instr : ScalarInstr) :
    (exec A zero inputs free r instr).Ensures fun r' =>
      r'.Related R zero zero' (execute B zero' inputs' free' q instr) := by
  cases instr with
  | input i k result => exact ensures_pure (hrq.write (hinputs i k) result)
  | free k result => exact ensures_pure (hrq.write (hfree k) result)
  | output i k a => exact ensures_pure (hrq.store (hrq.read a) i k)
  | constant c result =>
    exact (hR.constant c).bind fun x hx => ensures_pure (hrq.write hx result)
  | unary op a result =>
    exact (hR.unary op (hrq.read a)).bind fun x hx => ensures_pure (hrq.write hx result)
  | binary op a b result =>
    exact (hR.binary op (hrq.read a) (hrq.read b)).bind fun x hx =>
      ensures_pure (hrq.write hx result)

/-- **A run keeps step while the law holds.** -/
theorem ensures_replay (hR : Watched.Follows R A B) (tape : ScalarTape) {inputs : Bundle V}
    {inputs' : Bundle W} (hinputs : Bundle.Related R inputs inputs') {free : List V}
    {free' : List W} (hfree : List.Forall₂ R free free') (counts : List Nat) :
    (tape.replay A inputs free counts).Ensures fun outputs =>
      Bundle.Related R outputs (Id.run (tape.replay B inputs' free' counts)) := by
  rw [ScalarTape.replay_eq]
  refine (hR.constant 0.0).bind fun zero hzero => ?_
  have hread : ∀ i k, R (Grid.read zero (.ofBundle inputs) i k)
      (Grid.read (B.constant 0.0) (.ofBundle inputs') i k) := fun i k => by
    rw [Grid.read_ofBundle, Grid.read_ofBundle]
    exact hinputs.getD hzero i k
  have hfreeRead : ∀ k, R (free.toArray.getD k zero) (free'.toArray.getD k (B.constant 0.0)) :=
    fun k => by
      rw [Pattern.getD_toArray, Pattern.getD_toArray]
      exact forall₂_getD hfree hzero k
  refine (Ensures.foldlM (R := Run.Related R zero (B.constant 0.0))
    (p := execute B (B.constant 0.0) (.ofBundle inputs') free'.toArray)
    (fun r q instr instr' hrq (heq : instr = instr') =>
      heq ▸ ensures_exec hR hread hfreeRead hrq instr)
    (List.forall₂_same.mpr fun _ _ => rfl) (.start hzero tape.workSize counts)).bind
      fun r hrq => ?_
  exact ensures_pure (.of_grids hrq.width hrq.stored)

end ScalarTape

/-! ### Powers -/

namespace Interpretation

variable {V : Type} [CommRing V]

/-- Lowering the exponent of a power by one divides it by its base. -/
def LowersPower (I : Interpretation V) (x y : V) : Prop :=
  I.power x (y - 1) = I.power x y * I.quotient 1 x

/-- The algebra of the ring. It watches whether the exponents of the powers that it meets can be
lowered. -/
def watching (I : Interpretation V) : Algebra Watched V where
  constant v := ⟨I.literal v, True⟩
  unary op x := ⟨I.unary op x, True⟩
  binary op x y := ⟨I.binary op x y, op = .pow → I.LowersPower x y⟩
  isZero := fun _ => false

end Interpretation

end Fluxion
