import Fluxion.Proofs.Jacobian.Routines

/-!
# The reverse sweep is the transpose of the forward sweep

Over an algebra without effects a sweep computes numbers, and what it computes can be said without
any bookkeeping. A forward sweep runs the tape over dual numbers, once for each direction, and a
reverse sweep is the way back without effects (`pullBack`). That partial derivatives are made on
demand, handed on from one direction to the next, and left out where a contribution is known to be
zero, changes no result. So no direction can tell which others run with it.

The forward half needs no ring. It is enough that what counts as known to be zero is neutral in sums
and absorbing in products, which rounded numbers satisfy for want of such values. The reverse half
adds up in an order of its own, so it needs the ring.

That the two are transposes of each other is then the balance of `Pairing`, at the two ends of the
tape: slots are empty at the start and forgotten at the end, and what remains are the sums over the
inputs and over the outputs.

## Main definitions

* `Bundle.beside` — values and derivatives of two bundles, as dual numbers
* `Bundle.dot` — values times values, summed over all places
* `Algebra.SkipsZeros` — what may be left out of a forward sweep
* `ScalarTape.moving` — one instruction over dual numbers, along a seed

## Main results

* `ScalarTape.forward_eq` — **a forward sweep is a replay over dual numbers** in each direction
* `ScalarTape.reverse_eq` — **a reverse sweep is the way back** in each direction
* `ScalarTape.dot_sweeps` — **the sweeps are transposes of each other**
-/

namespace Fluxion

open TrivSqZeroExt (fst snd)

variable {V W : Type}

/-- Directions that are treated in turn are treated each by itself, as long as what is handed on has
no effect on them. -/
theorem inTurn_eq {σ α β : Type} {f : σ → α → Id (σ × β)} {P : σ → Prop} {k : α → β}
    (hf : ∀ s a, P s → P (f s a).1 ∧ (f s a).2 = k a) (as : List α) {s : σ} (hs : P s) :
    Id.run (inTurn f s as) = as.map k := by
  induction as generalizing s with
  | nil => rfl
  | cons a rest ih =>
    obtain ⟨hnext, hvalue⟩ := hf s a hs
    have hstep : Id.run (inTurn f s (a :: rest)) = (f s a).2 :: Id.run (inTurn f (f s a).1 rest) :=
      rfl
    rw [hstep, hvalue, ih hnext, List.map_cons]

/-! ### Bundles of dual numbers -/

namespace Bundle

/-- The values `x` with the derivatives `dx`. What one of them lacks is `zero`. -/
def beside (zero : V) (x dx : Bundle V) : Bundle (DualNumber V) :=
  List.zipWithAll (fun row drow =>
    List.zipWithAll (fun v dv => dualOf (v.getD zero) (dv.getD zero)) (row.getD []) (drow.getD []))
    x dx

theorem getD_zipWithAll {α β γ : Type} (f : Option α → Option β → γ) (as : List α) (bs : List β)
    (i : Nat) : (List.zipWithAll f as bs).getD i (f none none) = f as[i]? bs[i]? := by
  rw [List.getD_eq_getElem?_getD, List.getElem?_zipWithAll]
  cases as[i]? <;> cases bs[i]? <;> rfl

theorem getD_beside (zero : V) (x dx : Bundle V) (i k : Nat) :
    ((beside zero x dx).getD i []).getD k (dualOf zero zero)
      = dualOf ((x.getD i []).getD k zero) ((dx.getD i []).getD k zero) := by
  have hrow := getD_zipWithAll (fun row drow => List.zipWithAll
    (fun v dv => dualOf (v.getD zero) (dv.getD zero)) (row.getD []) (drow.getD [])) x dx i
  have hvalue := getD_zipWithAll (fun v dv => dualOf (v.getD zero) (dv.getD zero))
    (x.getD i []) (dx.getD i []) k
  simp only [List.getD_eq_getElem?_getD] at *
  rw [beside, ← hvalue, ← hrow]
  rfl

section Dot

open Finset

variable [CommRing V]

/-- Values times values, summed over all places of matrices with so many values. -/
def dot (counts : List Nat) (a b : Bundle V) : V :=
  ∑ i ∈ range counts.length, ∑ k ∈ range (counts.getD i 0),
    (a.getD i []).getD k 0 * (b.getD i []).getD k 0

theorem pairing_map (counts : List Nat) (a : Bundle V) (b : Bundle (DualNumber V)) :
    pairing counts a b = dot counts a (b.map (·.map snd)) := by
  refine sum_congr rfl fun i _ => sum_congr rfl fun k _ => congrArg₂ (· * ·) rfl ?_
  simp only [List.getD_eq_getElem?_getD, List.getElem?_map]
  cases b[i]? with
  | none => rfl
  | some row => cases h : row[k]? <;> simp [h]

theorem pairing_beside (counts : List Nat) (a x dx : Bundle V) :
    pairing counts a (beside 0 x dx) = dot counts a dx := by
  refine sum_congr rfl fun i _ => sum_congr rfl fun k _ => congrArg₂ (· * ·) rfl ?_
  exact congrArg snd (getD_beside 0 x dx i k)

end Dot

end Bundle

namespace ScalarTape

/-! ### Runs, value by value -/

namespace Run

/-- A run with every value replaced. -/
def map (f : V → W) (r : Run V) : Run W := ⟨r.slots.map f, r.outputs.map (Array.map f)⟩

theorem read_map (f : V → W) (r : Run V) (zero : V) (s : Nat) :
    (r.map f).read (f zero) s = f (r.read zero s) := by
  simp only [read, map, Array.getD_eq_getD_getElem?, Array.getElem?_map]
  cases r.slots[s]? <;> rfl

theorem map_write (f : V → W) (r : Run V) (s : Nat) (v : V) :
    (r.write s v).map f = (r.map f).write s (f v) := by
  simp only [write, map, Array.map_setIfInBounds]

theorem map_store (f : V → W) (r : Run V) (i k : Nat) (v : V) :
    (r.store i k v).map f = (r.map f).store i k (f v) := by
  have hgrid : (r.outputs.store i k v).map (Array.map f)
      = Grid.store (r.outputs.map (Array.map f)) i k (f v) := by
    refine Array.ext_getElem? fun j => ?_
    simp only [Grid.store, Array.getElem?_map, Array.getElem?_modify]
    split
    · cases r.outputs[j]? with
      | none => rfl
      | some row => simp
    · rfl
  rw [store, store, map, map, hgrid]

theorem map_start (f : V → W) (zero : V) (workSize : Nat) (counts : List Nat) :
    (start zero workSize counts).map f = start (f zero) workSize counts := by
  simp [start, map, Grid.fill, Function.comp_def]

theorem toBundle_map (f : V → W) (r : Run V) :
    (r.map f).outputs.toBundle = r.outputs.toBundle.map (·.map f) := by
  simp [map, Grid.toBundle, Function.comp_def]

/-- Writing what is there already changes nothing. -/
theorem write_read (r : Run V) (zero : V) (s : Nat) : r.write s (r.read zero s) = r := by
  have hslots : r.slots.setIfInBounds s (r.read zero s) = r.slots := by
    refine Array.ext_getElem? fun t => ?_
    rw [Array.getElem?_setIfInBounds]
    split
    · rename_i hst
      subst hst
      rw [read, Array.getD_eq_getD_getElem?]
      cases h : r.slots[s]? with
      | none => rw [if_neg (by simpa using h)]
      | some v => rw [if_pos (Array.getElem?_eq_some_iff.mp h).1]; rfl
    · rfl
  rw [write, hslots]

end Run

end ScalarTape

/-! ### Operands that are left out -/

/-- Operands that are known to be zero may be left out: such a value is the constant zero, neutral in
sums and absorbing in products. -/
structure Algebra.SkipsZeros (A : Algebra Id V) : Prop where
  eq_zero : ∀ v, A.isZero v = true → v = A.constant 0.0
  add_left : ∀ v x, A.isZero v = true → A.binary .add v x = x
  add_right : ∀ v x, A.isZero v = true → A.binary .add x v = x
  mul_right : ∀ v x, A.isZero v = true → A.binary .mul x v = v

theorem Algebra.Differentiates.skipsZeros [CommRing V] {A : Algebra Id V} (hA : A.Differentiates) :
    A.SkipsZeros where
  eq_zero v hv := (hA.eq_zero v hv).trans hA.zero.symm
  add_left v x hv := by rw [hA.add, hA.eq_zero v hv, zero_add]
  add_right v x hv := by rw [hA.add, hA.eq_zero v hv, add_zero]
  mul_right v x hv := by rw [hA.mul, hA.eq_zero v hv, mul_zero]

namespace ScalarTape

variable {A : Algebra Id V} {zero : V}

/-- A contribution is the product of the partial derivative and the derivative of the operand, and
nothing if the latter is known to be zero. -/
theorem contribute_eq {made : Option V} {p : V} (hmade : ∀ q ∈ made, q = p) (t : V)
    (sum : Option V) :
    (∀ q ∈ (contribute A p made t sum).1, q = p) ∧
      (contribute A p made t sum).2 = if A.isZero t then sum else
        some (match sum with
          | none => A.binary .mul p t
          | some s => A.binary .add s (A.binary .mul p t)) := by
  rw [contribute]
  split
  · exact ⟨hmade, rfl⟩
  · have hdone : ∀ q ∈ some p, q = p := fun q hq => (Option.mem_some_iff.mp hq).symm
    cases made with
    | none => cases sum <;> exact ⟨hdone, rfl⟩
    | some q =>
      obtain rfl := hmade q rfl
      cases sum <;> exact ⟨hdone, rfl⟩

theorem pushUnary_eq (hA : A.SkipsZeros) (hzero : A.constant 0.0 = zero) (op : UnaryOp) (x f : V)
    (a result : Nat) {made : Option V} (hmade : ∀ p ∈ made, p = A.unarySlope op x f)
    (t : Tangent V) :
    (∀ p ∈ (pushUnary A zero op x f a result made t).1, p = A.unarySlope op x f) ∧
      (pushUnary A zero op x f a result made t).2
        = t.write result (A.binary .mul (A.unarySlope op x f) (t.read zero a)) := by
  obtain ⟨hnext, hsum⟩ := contribute_eq (A := A) hmade (t.read zero a) none
  refine ⟨hnext, ?_⟩
  have hpush : (pushUnary A zero op x f a result made t).2
      = t.write result
        ((contribute A (A.unarySlope op x f) made (t.read zero a) none).2.getD zero) := rfl
  rw [hpush, hsum]
  split
  · rename_i hskip
    rw [hA.mul_right _ _ hskip, hA.eq_zero _ hskip, hzero]
    rfl
  · rfl

theorem pushBinary_eq (hA : A.SkipsZeros) (hzero : A.constant 0.0 = zero) (op : BinaryOp)
    (x y f : V) (a b result : Nat) {made : Option V × Option V}
    (hmade : (∀ p ∈ made.1, p = A.binarySlope op .left x y f) ∧
      ∀ p ∈ made.2, p = A.binarySlope op .right x y f) (t : Tangent V) :
    ((∀ p ∈ (pushBinary A zero op x y f a b result made t).1.1,
          p = A.binarySlope op .left x y f) ∧
        ∀ p ∈ (pushBinary A zero op x y f a b result made t).1.2,
          p = A.binarySlope op .right x y f) ∧
      (pushBinary A zero op x y f a b result made t).2
        = t.write result (A.binary .add
          (A.binary .mul (A.binarySlope op .left x y f) (t.read zero a))
          (A.binary .mul (A.binarySlope op .right x y f) (t.read zero b))) := by
  obtain ⟨hleft, hsum⟩ := contribute_eq (A := A) hmade.1 (t.read zero a) none
  obtain ⟨hright, htotal⟩ := contribute_eq (A := A) hmade.2 (t.read zero b)
    (contribute A (A.binarySlope op .left x y f) made.1 (t.read zero a) none).2
  refine ⟨⟨hleft, hright⟩, ?_⟩
  have hpush : (pushBinary A zero op x y f a b result made t).2
      = t.write result ((contribute A (A.binarySlope op .right x y f) made.2 (t.read zero b)
        (contribute A (A.binarySlope op .left x y f) made.1 (t.read zero a) none).2).2.getD zero) :=
    rfl
  rw [hpush, htotal, hsum]
  by_cases ha : A.isZero (t.read zero a) = true <;> by_cases hb : A.isZero (t.read zero b) = true
  · rw [if_pos hb, if_pos ha, hA.mul_right _ _ ha, hA.mul_right _ _ hb, hA.add_left _ _ ha,
      hA.eq_zero _ hb, hzero]
    rfl
  · rw [if_neg hb, if_pos ha, hA.mul_right _ _ ha, hA.add_left _ _ ha]
    rfl
  · rw [if_pos hb, if_neg ha, hA.mul_right _ _ hb, hA.add_right _ _ hb]
    rfl
  · rw [if_neg hb, if_neg ha]
    rfl

/-! ### The forward sweep -/

/-- The free symbols as dual numbers: they do not move. -/
def still (zero : V) (free : List V) : List (DualNumber V) := free.map fun v => dualOf v zero

/-- One instruction over dual numbers, when the inputs `x` move along `t`. -/
def moving (A : Algebra Id V) (zero : V) (x : Bundle V) (free : List V) (t : Bundle V) :
    Run (DualNumber V) → ScalarInstr → Run (DualNumber V) :=
  execute A.dual (dualOf zero zero) (.ofBundle (Bundle.beside zero x t)) (still zero free).toArray

theorem read_beside (zero : V) (x t : Bundle V) (i k : Nat) :
    (Grid.ofBundle (Bundle.beside zero x t)).read (dualOf zero zero) i k
      = dualOf ((Grid.ofBundle x).read zero i k) ((Grid.ofBundle t).read zero i k) := by
  rw [Grid.read_ofBundle, Grid.read_ofBundle, Grid.read_ofBundle]
  exact Bundle.getD_beside ..

theorem getD_still (zero : V) (free : List V) (k : Nat) :
    (still zero free).toArray.getD k (dualOf zero zero)
      = dualOf (free.toArray.getD k zero) zero := by
  simp only [still, Array.getD_eq_getD_getElem?, List.getElem?_toArray, List.getElem?_map]
  cases free[k]? <;> rfl

/-- The values of a run over dual numbers are those of a run without derivatives. -/
theorem map_fst_moving (x : Bundle V) (free : List V) (t : Bundle V) (q : Run (DualNumber V))
    (instr : ScalarInstr) :
    (moving A zero x free t q instr).map fst
      = execute A zero (.ofBundle x) free.toArray (q.map fst) instr := by
  have hread : ∀ s, (q.map fst).read zero s = (q.read (dualOf zero zero) s).fst :=
    fun s => Run.read_map fst q (dualOf zero zero) s
  cases instr with
  | input i k result => simp only [moving, execute, Run.map_write, read_beside, fst_dualOf]
  | free k result => simp only [moving, execute, Run.map_write, getD_still, fst_dualOf]
  | constant v result =>
    simp only [moving, execute, Run.map_write]
    rfl
  | unary op a result =>
    simp only [moving, execute, Run.map_write, hread]
    rfl
  | binary op a b result =>
    simp only [moving, execute, Run.map_write, hread]
    rfl
  | output i k a => simp only [moving, execute, Run.map_store, hread]

/-- **One instruction forward** moves every direction as a run over dual numbers does. A direction
is known by its seed `t`, and `Q t` is the run that it follows. -/
theorem forwardStep_eq (hA : A.SkipsZeros) (hzero : A.constant 0.0 = zero) (x : Bundle V)
    (free : List V) (seeds : List (Bundle V)) {r : Run V} {Q : Bundle V → Run (DualNumber V)}
    (hr : ∀ t, (Q t).map fst = r) (instr : ScalarInstr) :
    Id.run (forwardStep A zero (.ofBundle x) free.toArray
        (r, seeds.map fun t => ⟨.ofBundle t, (Q t).map snd⟩) instr)
      = (execute A zero (.ofBundle x) free.toArray r instr,
        seeds.map fun t => ⟨.ofBundle t, (moving A zero x free t (Q t) instr).map snd⟩) := by
  have hread : ∀ t s, ((Q t).read (dualOf zero zero) s).fst = r.read zero s := by
    intro t s
    rw [← hr t]
    exact (Run.read_map fst (Q t) (dualOf zero zero) s).symm
  have hmoved : ∀ t s, ((Q t).map snd).read zero s = ((Q t).read (dualOf zero zero) s).snd :=
    fun t s => Run.read_map snd (Q t) (dualOf zero zero) s
  cases instr with
  | input i k result =>
    simp only [moving, execute, Run.map_write, read_beside, snd_dualOf]
    simp only [forwardStep, List.map_map]
    rfl
  | free k result =>
    simp only [moving, execute, Run.map_write, getD_still, snd_dualOf]
    simp only [forwardStep, List.map_map]
    rfl
  | constant v result =>
    have hstill : ∀ t, (moving A zero x free t (Q t) (.constant v result)).map snd
        = ((Q t).map snd).write result zero := by
      intro t
      rw [← hzero]
      exact Run.map_write ..
    simp only [hstill, forwardStep, List.map_map]
    rfl
  | unary op a result =>
    have hturn := inTurn_eq (P := fun made => ∀ p ∈ made,
        p = A.unarySlope op (r.read zero a) (A.unary op (r.read zero a)))
      (fun made t hmade => pushUnary_eq hA hzero op (r.read zero a) (A.unary op (r.read zero a)) a
        result hmade t)
      (seeds.map fun t => ⟨.ofBundle t, (Q t).map snd⟩) (s := none) (by simp)
    have hstep : ∀ t, (moving A zero x free t (Q t) (.unary op a result)).map snd
        = ((Q t).map snd).write result (A.binary .mul
          (A.unarySlope op (r.read zero a) (A.unary op (r.read zero a)))
          (((Q t).map snd).read zero a)) := by
      intro t
      simp only [moving, execute, Run.map_write, hmoved, ← hread t]
      rfl
    rw [List.map_map] at hturn
    simp only [hstep]
    exact congrArg (Prod.mk _) hturn
  | binary op a b result =>
    have hturn := inTurn_eq (P := fun made : Option V × Option V =>
        (∀ p ∈ made.1, p = A.binarySlope op .left (r.read zero a) (r.read zero b)
          (A.binary op (r.read zero a) (r.read zero b))) ∧
        ∀ p ∈ made.2, p = A.binarySlope op .right (r.read zero a) (r.read zero b)
          (A.binary op (r.read zero a) (r.read zero b)))
      (fun made t hmade => pushBinary_eq hA hzero op (r.read zero a) (r.read zero b)
        (A.binary op (r.read zero a) (r.read zero b)) a b result hmade t)
      (seeds.map fun t => ⟨.ofBundle t, (Q t).map snd⟩) (s := (none, none)) (by simp)
    have hstep : ∀ t, (moving A zero x free t (Q t) (.binary op a b result)).map snd
        = ((Q t).map snd).write result (A.binary .add
          (A.binary .mul (A.binarySlope op .left (r.read zero a) (r.read zero b)
            (A.binary op (r.read zero a) (r.read zero b))) (((Q t).map snd).read zero a))
          (A.binary .mul (A.binarySlope op .right (r.read zero a) (r.read zero b)
            (A.binary op (r.read zero a) (r.read zero b))) (((Q t).map snd).read zero b))) := by
      intro t
      simp only [moving, execute, Run.map_write, hmoved, ← hread t]
      rfl
    rw [List.map_map] at hturn
    simp only [hstep]
    exact congrArg (Prod.mk _) hturn
  | output i k a =>
    simp only [moving, execute, Run.map_store, ← hmoved]
    simp only [forwardStep, List.map_map]
    rfl

theorem foldlM_forwardStep (hA : A.SkipsZeros) (hzero : A.constant 0.0 = zero) (x : Bundle V)
    (free : List V) (seeds : List (Bundle V)) (instrs : List ScalarInstr) {r : Run V}
    {Q : Bundle V → Run (DualNumber V)} (hr : ∀ t, (Q t).map fst = r) :
    Id.run (instrs.foldlM (forwardStep A zero (.ofBundle x) free.toArray)
        (r, seeds.map fun t => ⟨.ofBundle t, (Q t).map snd⟩))
      = (instrs.foldl (execute A zero (.ofBundle x) free.toArray) r,
        seeds.map fun t =>
          ⟨.ofBundle t, (instrs.foldl (moving A zero x free t) (Q t)).map snd⟩) := by
  induction instrs generalizing r Q with
  | nil => rfl
  | cons instr rest ih =>
    have hstep := forwardStep_eq hA hzero x free seeds hr instr
    have hnext : ∀ t, (moving A zero x free t (Q t) instr).map fst
        = execute A zero (.ofBundle x) free.toArray r instr := by
      intro t
      rw [map_fst_moving, hr t]
    have hcons : Id.run ((instr :: rest).foldlM (forwardStep A zero (.ofBundle x) free.toArray)
          (r, seeds.map fun t => ⟨.ofBundle t, (Q t).map snd⟩))
        = Id.run (rest.foldlM (forwardStep A zero (.ofBundle x) free.toArray)
          (Id.run (forwardStep A zero (.ofBundle x) free.toArray
            (r, seeds.map fun t => ⟨.ofBundle t, (Q t).map snd⟩) instr))) := rfl
    rw [hcons, hstep, ih hnext]
    rfl

/-- **Forward sweeps** give the outputs of a replay, and in each direction the derivatives of a
replay over dual numbers. -/
theorem forward_eq (hA : A.SkipsZeros) (hzero : A.constant 0.0 = zero) (tape : ScalarTape)
    (x : Bundle V) (free : List V) (seeds : List (Bundle V)) (counts : List Nat) :
    Id.run (tape.forward A x free seeds counts)
      = (Id.run (tape.replay A x free counts),
        seeds.map fun t =>
          (Id.run (tape.replay A.dual (Bundle.beside zero x t) (still zero free) counts)).map
            (·.map snd)) := by
  have hfold := foldlM_forwardStep hA hzero x free seeds tape.instrs
    (r := .start zero tape.workSize counts)
    (Q := fun _ => .start (dualOf zero zero) tape.workSize counts)
    (fun _ => Run.map_start fst (dualOf zero zero) tape.workSize counts)
  have hrun : Id.run (tape.forward A x free seeds counts)
      = (fun state : Run V × List (Tangent V) =>
          (state.1.outputs.toBundle, state.2.map (·.run.outputs.toBundle)))
        (Id.run (tape.instrs.foldlM (forwardStep A zero (.ofBundle x) free.toArray)
          (.start zero tape.workSize counts,
            seeds.map fun t => ⟨.ofBundle t, .start zero tape.workSize counts⟩))) := by
    rw [← hzero]
    rfl
  have hstart : (Run.start (dualOf zero zero) tape.workSize counts).map snd
      = .start zero tape.workSize counts := Run.map_start ..
  rw [hstart] at hfold
  have hvalues : tape.finish A x free counts
      = tape.instrs.foldl (execute A zero (.ofBundle x) free.toArray)
        (.start zero tape.workSize counts) := by
    rw [← hzero]
    rfl
  have hduals : ∀ t, tape.finish A.dual (Bundle.beside zero x t) (still zero free) counts
      = tape.instrs.foldl (moving A zero x free t)
        (.start (dualOf zero zero) tape.workSize counts) := by
    rw [← hzero]
    exact fun _ => rfl
  simp only [hrun, hfold, replay_eq, hvalues, hduals, ← Run.toBundle_map, List.map_map]
  rfl

/-! ### The reverse sweep -/

variable [CommRing V]

theorem increase_zero (d : Adjoint V) (slot : Nat) : increase d slot 0 = d := by
  rw [increase, add_zero, Adjoint.write, Adjoint.read, Run.write_read]

/-- What is given back is the product of the partial derivative and the adjoint of the result. -/
theorem giveBack_eq (hA : A.Differentiates) {made : Option V} {p : V} (hmade : ∀ q ∈ made, q = p)
    (s : V) (slot : Nat) (d : Adjoint V) :
    (∀ q ∈ (giveBack A 0 p made s slot d).1, q = p) ∧
      (giveBack A 0 p made s slot d).2 = increase d slot (p * s) := by
  have hdone : ∀ q ∈ some p, q = p := fun q hq => (Option.mem_some_iff.mp hq).symm
  rw [← hA.mul, increase, ← hA.add]
  cases made with
  | none => exact ⟨hdone, rfl⟩
  | some q =>
    obtain rfl := hmade q rfl
    exact ⟨hdone, rfl⟩

theorem pullUnary_eq (hA : A.Differentiates) (op : UnaryOp) (record : Record V) (a result : Nat)
    {made : Option V} (hmade : ∀ p ∈ made, p = A.unarySlope op record.x record.f)
    (d : Adjoint V) :
    (∀ p ∈ (pullUnary A 0 op record a result made d).1,
        p = A.unarySlope op record.x record.f) ∧
      (pullUnary A 0 op record a result made d).2 = pull A d (.unary op a result, record) := by
  rw [pullUnary]
  split
  · rename_i hskip
    refine ⟨hmade, ?_⟩
    have hpull : pull A d (.unary op a result, record)
        = increase (d.write result 0) a
          (A.unarySlope op record.x record.f * d.read 0 result) := rfl
    rw [hpull, hA.eq_zero _ hskip, mul_zero, increase_zero]
    rfl
  · exact giveBack_eq hA hmade _ _ _

theorem pullBinary_eq (hA : A.Differentiates) (op : BinaryOp) (record : Record V)
    (a b result : Nat) {made : Option V × Option V}
    (hmade : (∀ p ∈ made.1, p = A.binarySlope op .left record.x record.y record.f) ∧
      ∀ p ∈ made.2, p = A.binarySlope op .right record.x record.y record.f) (d : Adjoint V) :
    ((∀ p ∈ (pullBinary A 0 op record a b result made d).1.1,
          p = A.binarySlope op .left record.x record.y record.f) ∧
        ∀ p ∈ (pullBinary A 0 op record a b result made d).1.2,
          p = A.binarySlope op .right record.x record.y record.f) ∧
      (pullBinary A 0 op record a b result made d).2
        = pull A d (.binary op a b result, record) := by
  rw [pullBinary]
  split
  · rename_i hskip
    refine ⟨hmade, ?_⟩
    have hpull : pull A d (.binary op a b result, record)
        = increase (increase (d.write result 0) a
            (A.binarySlope op .left record.x record.y record.f * d.read 0 result)) b
          (A.binarySlope op .right record.x record.y record.f * d.read 0 result) := rfl
    rw [hpull, hA.eq_zero _ hskip, mul_zero, mul_zero, increase_zero, increase_zero]
    rfl
  · obtain ⟨hleft, hfirst⟩ := giveBack_eq hA hmade.1 (d.read 0 result) a (d.write result 0)
    obtain ⟨hright, hsecond⟩ := giveBack_eq hA hmade.2 (d.read 0 result) b
      (giveBack A 0 (A.binarySlope op .left record.x record.y record.f) made.1 (d.read 0 result) a
        (d.write result 0)).2
    refine ⟨⟨hleft, hright⟩, hsecond.trans ?_⟩
    rw [hfirst]
    rfl

/-- **One instruction back** moves every direction as the way back without effects does. -/
theorem reverseStep_eq (hA : A.Differentiates) (ds : List (Adjoint V))
    (entry : ScalarInstr × Record V) :
    Id.run (reverseStep A 0 ds entry) = ds.map (pull A · entry) := by
  obtain ⟨instr, record⟩ := entry
  cases instr with
  | input i k result => rfl
  | constant v result => rfl
  | free k result => rfl
  | unary op a result =>
    exact inTurn_eq (P := fun made => ∀ p ∈ made, p = A.unarySlope op record.x record.f)
      (fun made d hmade => pullUnary_eq hA op record a result hmade d) ds (by simp)
  | binary op a b result =>
    exact inTurn_eq (P := fun made : Option V × Option V =>
        (∀ p ∈ made.1, p = A.binarySlope op .left record.x record.y record.f) ∧
        ∀ p ∈ made.2, p = A.binarySlope op .right record.x record.y record.f)
      (fun made d hmade => pullBinary_eq hA op record a b result hmade d) ds (by simp)
  | output i k a =>
    refine List.idRun_mapM.trans (List.map_congr_left fun d _ => ?_)
    have hpull : pull A d (.output i k a, record) = increase d a (d.seed.read 0 i k) := rfl
    simp only
    split
    · rename_i hskip
      rw [hpull, hA.eq_zero _ hskip, increase_zero]
      rfl
    · rw [hpull, increase, ← hA.add]
      rfl

theorem foldlM_reverseStep (hA : A.Differentiates) (records : List (ScalarInstr × Record V))
    (ds : List (Adjoint V)) :
    Id.run (records.foldlM (reverseStep A 0) ds) = ds.map fun d => records.foldl (pull A) d := by
  rw [← foldl_map_pull]
  induction records generalizing ds with
  | nil => rfl
  | cons entry rest ih =>
    have hcons : Id.run ((entry :: rest).foldlM (reverseStep A 0) ds)
        = Id.run (rest.foldlM (reverseStep A 0) (Id.run (reverseStep A 0 ds entry))) := rfl
    rw [hcons, reverseStep_eq hA, ih, List.foldl_cons]

/-- The run forth of a reverse sweep is the run of a replay, and its records are those of the run over
dual numbers, along whatever seed. -/
theorem foldlM_recordStep (x : Bundle V) (free : List V) (t : Bundle V)
    (instrs : List ScalarInstr) (q : Run (DualNumber V))
    (records : List (ScalarInstr × Record V)) :
    Id.run (instrs.foldlM (recordStep A 0 (.ofBundle x) free.toArray) (q.map fst, records))
      = (instrs.foldl (execute A 0 (.ofBundle x) free.toArray) (q.map fst),
        (instrs.foldl (recordPure A (.ofBundle (Bundle.beside 0 x t)) (still 0 free).toArray)
          (q, records)).2) := by
  induction instrs generalizing q records with
  | nil => rfl
  | cons instr rest ih =>
    have hstep : Id.run (recordStep A 0 (.ofBundle x) free.toArray (q.map fst, records) instr)
        = ((moving A 0 x free t q instr).map fst, (instr, recordOf A q instr) :: records) := by
      have hread : ∀ s, (q.map fst).read 0 s = (q.read 0 s).fst := fun s =>
        Run.read_map fst q 0 s
      rw [map_fst_moving]
      cases instr with
      | unary op a result => simp only [recordOf, ← hread]; rfl
      | binary op a b result => simp only [recordOf, ← hread]; rfl
      | input | constant | free | output => rfl
    have hcons : Id.run ((instr :: rest).foldlM (recordStep A 0 (.ofBundle x) free.toArray)
          (q.map fst, records))
        = Id.run (rest.foldlM (recordStep A 0 (.ofBundle x) free.toArray)
          (Id.run (recordStep A 0 (.ofBundle x) free.toArray (q.map fst, records) instr))) := rfl
    rw [hcons, hstep, ih, map_fst_moving]
    rfl

/-- The way back of a tape, from weights of the outputs. -/
def wayBack (tape : ScalarTape) (A : Algebra Id V) (dual : Bundle (DualNumber V))
    (freeDual : List (DualNumber V)) (inCounts outCounts : List Nat) (s : Bundle V) : Adjoint V :=
  pullBack A (.ofBundle dual) freeDual.toArray (.start 0 tape.workSize outCounts) tape.instrs
    ⟨.ofBundle s, .start 0 tape.workSize inCounts⟩

/-- **Reverse sweeps** give the outputs of a replay, and in each direction what the way back without
effects gives, along whatever seed `t` the run forth moves. -/
theorem reverse_eq (hA : A.Differentiates) (tape : ScalarTape) (x : Bundle V) (free : List V)
    (seeds : List (Bundle V)) (inCounts outCounts : List Nat) (t : Bundle V) :
    Id.run (tape.reverse A x free seeds inCounts outCounts)
      = (Id.run (tape.replay A x free outCounts),
        seeds.map fun s => (tape.wayBack A (Bundle.beside 0 x t) (still 0 free) inCounts outCounts
          s).run.outputs.toBundle) := by
  have hrun : Id.run (tape.reverse A x free seeds inCounts outCounts)
      = (fun state : Run V × List (ScalarInstr × Record V) =>
          (state.1.outputs.toBundle,
            (Id.run (state.2.foldlM (reverseStep A 0) (seeds.map fun s =>
              ⟨.ofBundle s, .start 0 tape.workSize inCounts⟩))).map (·.run.outputs.toBundle)))
        (Id.run (tape.instrs.foldlM (recordStep A 0 (.ofBundle x) free.toArray)
          (.start 0 tape.workSize outCounts, []))) := by
    rw [← hA.zero]
    rfl
  have hvalues : tape.finish A x free outCounts
      = tape.instrs.foldl (execute A 0 (.ofBundle x) free.toArray)
        (.start 0 tape.workSize outCounts) := by
    rw [← hA.zero]
    rfl
  have hforth := foldlM_recordStep (A := A) x free t tape.instrs
    (.start 0 tape.workSize outCounts) []
  have hstart : (Run.start (0 : DualNumber V) tape.workSize outCounts).map fst
      = .start 0 tape.workSize outCounts := Run.map_start ..
  rw [hstart] at hforth
  rw [hrun, hforth, replay_eq, hvalues]
  simp only [foldlM_reverseStep hA, foldl_pull_records, List.map_map]
  rfl

theorem map_length_wayBack (tape : ScalarTape) (dual : Bundle (DualNumber V))
    (freeDual : List (DualNumber V)) (inCounts outCounts : List Nat) (s : Bundle V) :
    (tape.wayBack A dual freeDual inCounts outCounts s).run.outputs.toBundle.map List.length
      = inCounts := by
  refine Grid.map_length_toBundle ?_ fun i => ?_
  · rw [wayBack, size_outputs_pullBack]
    simp [Run.start, Grid.fill]
  · rw [wayBack, width_pullBack]
    exact Grid.width_fill ..

/-! ### Transposition -/

section Transposition

variable {g : ScalarGraph} {inputs outputs : List (SparseMatrix ScalarId)} {tape : ScalarTape}

/-- The way back, paired with a direction of the inputs, is the weighted derivative of the outputs. -/
theorem Compiled.dot_wayBack (h : Compiled g inputs outputs tape) (hA : A.Differentiates)
    (x : Bundle V) (free : List V) (t s : Bundle V) :
    Bundle.dot (countsOf inputs)
        (tape.wayBack A (Bundle.beside 0 x t) (still 0 free) (countsOf inputs) (countsOf outputs)
          s).run.outputs.toBundle t
      = Bundle.dot (countsOf outputs) s
        ((Id.run (tape.replay A.dual (Bundle.beside 0 x t) (still 0 free)
          (countsOf outputs))).map (·.map snd)) := by
  have hstill : ∀ k, ((still 0 free).getD k 0).snd = 0 := by
    intro k
    have hk := getD_still 0 free k
    rw [Array.getD_eq_getD_getElem?, List.getElem?_toArray, ← List.getD_eq_getElem?_getD] at hk
    exact congrArg snd hk
  have hweigh := weigh_pullBack hA tape (Bundle.beside 0 x t) (.ofBundle s) hstill
    (h.loadsOnce (.ofBundle s)) h.storesOnce
  rw [weigh_placesOf, weigh_placesOf, Grid.toBundle_ofBundle, Grid.toBundle_ofBundle,
    Bundle.pairing_beside, ← ScalarTape.replay_eq, Bundle.pairing_map] at hweigh
  exact hweigh

/-- **The sweeps are transposes of each other.** A forward and a reverse sweep of a compiled tape both
give the outputs of a replay, and for every direction of the one and every direction of the other, the
adjoint seed paired with the tangents of the outputs is the adjoints of the inputs paired with the
tangent seed. -/
theorem dot_sweeps (h : compile g inputs outputs = .ok tape) (hA : A.Differentiates) (x : Bundle V)
    (free : List V) (tangentSeeds adjointSeeds : List (Bundle V)) :
    ∃ tangents adjoints : List (Bundle V),
      Id.run (tape.forward A x free tangentSeeds (countsOf outputs))
          = (Id.run (tape.replay A x free (countsOf outputs)), tangents) ∧
        Id.run (tape.reverse A x free adjointSeeds (countsOf inputs) (countsOf outputs))
          = (Id.run (tape.replay A x free (countsOf outputs)), adjoints) ∧
        tangents.length = tangentSeeds.length ∧ adjoints.length = adjointSeeds.length ∧
        (∀ dy ∈ tangents, dy.map List.length = countsOf outputs) ∧
        (∀ dx ∈ adjoints, dx.map List.length = countsOf inputs) ∧
        ∀ i j, i < tangentSeeds.length → j < adjointSeeds.length →
          Bundle.dot (countsOf outputs) (adjointSeeds.getD j []) (tangents.getD i [])
            = Bundle.dot (countsOf inputs) (adjoints.getD j []) (tangentSeeds.getD i []) := by
  -- the reverse sweep is the way back along any seed, for it knows none of them
  have hreverse := reverse_eq hA tape x free adjointSeeds (countsOf inputs) (countsOf outputs)
  have hadjoints := fun t => congrArg Prod.snd (hreverse t)
  have houtputs : (Id.run (tape.reverse A x free adjointSeeds (countsOf inputs)
      (countsOf outputs))).1 = Id.run (tape.replay A x free (countsOf outputs)) := by
    rw [hreverse []]
  refine ⟨_, (Id.run (tape.reverse A x free adjointSeeds (countsOf inputs) (countsOf outputs))).2,
    forward_eq hA.skipsZeros hA.zero tape x free tangentSeeds (countsOf outputs),
    Prod.ext houtputs rfl, List.length_map _, ?_, ?_, ?_,
    fun i j hi hj => ?_⟩
  · rw [hadjoints [], List.length_map]
  · intro dy hdy
    obtain ⟨t, -, rfl⟩ := List.mem_map.mp hdy
    refine Eq.trans ?_ (map_length_replay tape A.dual (Bundle.beside 0 x t) (still 0 free)
      (countsOf outputs))
    rw [List.map_map]
    exact List.map_congr_left fun row _ => List.length_map _
  · intro dx hdx
    rw [hadjoints []] at hdx
    obtain ⟨s, -, rfl⟩ := List.mem_map.mp hdx
    exact map_length_wayBack ..
  · have hdot := (compiled_of_compile h).dot_wayBack hA x free tangentSeeds[i] adjointSeeds[j]
    rw [hadjoints tangentSeeds[i], List.getD_eq_getElem?_getD, List.getD_eq_getElem?_getD,
      List.getD_eq_getElem?_getD, List.getD_eq_getElem?_getD, List.getElem?_map,
      List.getElem?_map, List.getElem?_eq_getElem hi, List.getElem?_eq_getElem hj]
    exact hdot.symm

end Transposition

end ScalarTape

/-! ### The sweeps of a tape that reuses slots -/

namespace DampedSine

/-- Whole numbers with squares for sines, and so doubles for cosines. Zeros are known to be zero. -/
def squares : Algebra Id Int where
  constant v := (if v = 1.0 then 1 else if v = -1.0 then -1 else 0 : Int)
  unary
    | .neg, x => -x
    | .sin, x => x * x
    | .cos, x => 2 * x
    | _, _ => 0
  binary
    | .add, x, y => x + y
    | .sub, x, y => x - y
    | .mul, x, y => x * y
    | .div, _, _ | .pow, _, _ => 0
  isZero x := x == 0

theorem differentiates_squares : squares.Differentiates where
  add _ _ := rfl
  mul _ _ := rfl
  zero := rfl
  eq_zero v hv := by simpa [squares] using hv

/-- At `x = 3` and `y = 5`, with two directions forward and one back. -/
theorem dot_sweeps_squares :
    ∃ tangents adjoints : List (Bundle Int),
      Id.run (tape.forward squares [[3]] [5] [[[1]], [[2]]] [1, 2])
          = ([[9], [45, 9]], tangents) ∧
        Id.run (tape.reverse squares [[3]] [5] [[[1], [10, 100]]] [1] [1, 2])
          = ([[9], [45, 9]], adjoints) ∧
        Bundle.dot [1, 2] [[1], [10, 100]] (tangents.getD 1 [])
          = Bundle.dot [1] (adjoints.getD 0 []) [[2]] := by
  obtain ⟨tangents, adjoints, hforward, hreverse, -, -, -, -, hdot⟩ := ScalarTape.dot_sweeps
    (show ScalarTape.compile graph [.scalar ⟨3⟩] outputs = .ok tape from rfl)
    differentiates_squares [[3]] [5] [[[1]], [[2]]] [[[1], [10, 100]]]
  have hreplay : Id.run (tape.replay squares [[3]] [5] [1, 2]) = [[9], [45, 9]] := by decide
  have hcounts : ScalarTape.countsOf outputs = [1, 2] := rfl
  rw [hcounts, hreplay] at hforward hreverse
  exact ⟨tangents, adjoints, hforward, hreverse, hdot 1 0 (by decide) (by decide)⟩

end DampedSine

end Fluxion
