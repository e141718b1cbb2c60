import Fluxion.Proofs.Scalar.Meaning
import Fluxion.Proofs.Scalar.Runs
import Mathlib.Algebra.BigOperators.Ring.Finset

/-!
# Adjoints against tangents

Going back over a tape, a reverse sweep keeps an adjoint for every slot; going forward, a run over
dual numbers keeps a derivative for every slot. Summed over the slots, adjoint times derivative does
not change from one instruction to the next, apart from what is handed over at the ends: what was
loaded from the inputs, and what is stored into the outputs. So the adjoints of the inputs are the
derivatives of the weighted sum of the outputs.

This needs nothing about how slots are assigned. A slot that is overwritten loses its derivative, and
on the way back it loses its adjoint.

## Main definitions

* `ScalarTape.pull`, `ScalarTape.pullBack` — the way back, in one direction and without effects
* `ScalarTape.pairing` — the sum over the slots
* `ScalarTape.weigh` — a sum over places of a grid

## Main results

* `ScalarTape.balance_pull` — one instruction leaves the sums as they are, taken together
* `ScalarTape.weigh_pullBack` — **adjoints of inputs are derivatives of weighted outputs**
-/

namespace Fluxion

open Finset

variable {V : Type} [CommRing V] {A : Algebra Id V}

namespace ScalarTape

/-! ### The way back -/

/-- The operands and the result of an instruction, read from a run over dual numbers. -/
def recordOf (A : Algebra Id V) (q : Run (DualNumber V)) : ScalarInstr → Record V
  | .unary op a _ => ⟨(q.read 0 a).fst, 0, A.unary op (q.read 0 a).fst⟩
  | .binary op a b _ =>
    ⟨(q.read 0 a).fst, (q.read 0 b).fst, A.binary op (q.read 0 a).fst (q.read 0 b).fst⟩
  | _ => ⟨0, 0, 0⟩

/-- Add to an adjoint. -/
def increase (d : Adjoint V) (slot : Nat) (term : V) : Adjoint V :=
  d.write slot (d.read 0 slot + term)

/-- Go back over one instruction. -/
def pull (A : Algebra Id V) (d : Adjoint V) : ScalarInstr × Record V → Adjoint V
  | (.output i k a, _) => increase d a (d.seed.read 0 i k)
  | (.input i k result, _) =>
    { d with run := (d.run.store i k (d.read 0 result)).write result 0 }
  | (.constant _ result, _) | (.free _ result, _) => d.write result 0
  | (.unary op a result, record) =>
    increase (d.write result 0) a (A.unarySlope op record.x record.f * d.read 0 result)
  | (.binary op a b result, record) =>
    increase
      (increase (d.write result 0) a
        (A.binarySlope op .left record.x record.y record.f * d.read 0 result))
      b (A.binarySlope op .right record.x record.y record.f * d.read 0 result)

/-- One instruction of a run over dual numbers. -/
abbrev dualStep (A : Algebra Id V) (inputs : Grid (DualNumber V))
    (free : Array (DualNumber V)) : Run (DualNumber V) → ScalarInstr → Run (DualNumber V) :=
  execute A.dual 0 inputs free

/-- Go back over a list of instructions that were carried out from a state `q` on. -/
def pullBack (A : Algebra Id V) (inputs : Grid (DualNumber V)) (free : Array (DualNumber V)) :
    Run (DualNumber V) → List ScalarInstr → Adjoint V → Adjoint V
  | _, [], d => d
  | q, instr :: rest, d =>
    pull A (pullBack A inputs free (dualStep A inputs free q instr) rest d)
      (instr, recordOf A q instr)

/-! ### Sums over slots -/

/-- Adjoint times derivative, summed over the slots. -/
def pairing (d : Adjoint V) (q : Run (DualNumber V)) : V :=
  ∑ s ∈ range q.slots.size, d.read 0 s * (q.read 0 s).snd

theorem read_of_size_le {W : Type} {zero : W} {r : Run W} {s : Nat} (h : r.slots.size ≤ s) :
    r.read zero s = zero := by
  rw [Run.read, Array.getD_eq_getD_getElem?, Array.getElem?_eq_none h, Option.getD_none]

/-- A sum in which one term is changed. -/
theorem sum_change {n s : Nat} {f g : Nat → V} (hother : ∀ t, t ≠ s → f t = g t)
    (hout : n ≤ s → f s = g s) : ∑ t ∈ range n, f t = ∑ t ∈ range n, g t + (f s - g s) := by
  by_cases hs : s < n
  · have hmem := mem_range.mpr hs
    rw [← add_sum_erase _ f hmem, ← add_sum_erase _ g hmem,
      sum_congr rfl fun t ht => hother t (ne_of_mem_erase ht)]
    ring
  · rw [hout (by omega), sub_self, add_zero]
    refine sum_congr rfl fun t ht => hother t ?_
    have := mem_range.mp ht
    omega

theorem pairing_write (d : Adjoint V) (q : Run (DualNumber V))
    (hsize : d.run.slots.size = q.slots.size) (s : Nat) (v : V) :
    pairing (d.write s v) q = pairing d q + (v - d.read 0 s) * (q.read 0 s).snd := by
  have hread : ∀ t, (d.write s v).read 0 t
      = if s = t ∧ s < d.run.slots.size then v else d.read 0 t := Run.read_write 0 d.run s v
  rw [pairing, pairing, sum_change (s := s) (g := fun t => d.read 0 t * (q.read 0 t).snd)]
  · by_cases hs : s < d.run.slots.size
    · rw [hread, if_pos ⟨rfl, hs⟩]
      ring
    · rw [hread, if_neg fun h => hs h.2, read_of_size_le (r := q) (by omega)]
      simp
  · intro t hts
    rw [hread, if_neg fun h => hts h.1.symm]
  · intro hs
    rw [read_of_size_le hs]
    simp

theorem pairing_increase (d : Adjoint V) (q : Run (DualNumber V))
    (hsize : d.run.slots.size = q.slots.size) (s : Nat) (v : V) :
    pairing (increase d s v) q = pairing d q + v * (q.read 0 s).snd := by
  rw [increase, pairing_write d q hsize]
  ring

/-- A write into a slot of the run, against adjoints. -/
theorem pairing_write_run (d : Adjoint V) (q : Run (DualNumber V))
    (hsize : d.run.slots.size = q.slots.size) (s : Nat) (x : DualNumber V) :
    pairing d (q.write s x) = pairing d q + d.read 0 s * (x.snd - (q.read 0 s).snd) := by
  rw [pairing, pairing, Run.size_slots_write,
    sum_change (s := s) (g := fun t => d.read 0 t * (q.read 0 t).snd)]
  · by_cases hs : s < q.slots.size
    · rw [Run.read_write, if_pos ⟨rfl, hs⟩]
      ring
    · have hzero : d.read 0 s = 0 := read_of_size_le (r := d.run) (by omega)
      rw [hzero]
      ring
  · intro t hts
    rw [Run.read_write, if_neg fun h => hts h.1.symm]
  · intro hs
    rw [Run.read_write, if_neg fun h => absurd h.2 (by omega)]

/-! ### Sums over places -/

/-- The products of the values of a grid and the derivatives of another one, summed over places. -/
def weigh (places : Finset (Nat × Nat)) (a : Grid V) (b : Grid (DualNumber V)) : V :=
  ∑ p ∈ places, a.read 0 p.1 p.2 * (b.read 0 p.1 p.2).snd

theorem sum_change_place {places : Finset (Nat × Nat)} {p : Nat × Nat} (hp : p ∈ places)
    {f g : Nat × Nat → V} (hother : ∀ t, t ≠ p → f t = g t) :
    ∑ t ∈ places, f t = ∑ t ∈ places, g t + (f p - g p) := by
  rw [← add_sum_erase _ f hp, ← add_sum_erase _ g hp,
    sum_congr rfl fun t ht => hother t (ne_of_mem_erase ht)]
  ring

theorem weigh_store_left {places : Finset (Nat × Nat)} {i k : Nat} (hp : (i, k) ∈ places)
    {a : Grid V} (b : Grid (DualNumber V)) (hwidth : k < a.width i) (hzero : a.read 0 i k = 0)
    (v : V) : weigh places (a.store i k v) b = weigh places a b + v * (b.read 0 i k).snd := by
  rw [weigh, weigh, sum_change_place hp (g := fun p => a.read 0 p.1 p.2 * (b.read 0 p.1 p.2).snd)]
  · rw [Grid.read_store, if_pos ⟨⟨rfl, rfl⟩, hwidth⟩, hzero]
    ring
  · rintro ⟨j, l⟩ hne
    rw [Grid.read_store, if_neg]
    rintro ⟨⟨rfl, rfl⟩, -⟩
    exact hne rfl

theorem weigh_store_right {places : Finset (Nat × Nat)} {i k : Nat} (hp : (i, k) ∈ places)
    (a : Grid V) {b : Grid (DualNumber V)} (hwidth : k < b.width i)
    (hzero : (b.read 0 i k).snd = 0) (x : DualNumber V) :
    weigh places a (b.store i k x) = weigh places a b + a.read 0 i k * x.snd := by
  rw [weigh, weigh, sum_change_place hp (g := fun p => a.read 0 p.1 p.2 * (b.read 0 p.1 p.2).snd)]
  · rw [Grid.read_store, if_pos ⟨⟨rfl, rfl⟩, hwidth⟩, hzero]
    ring
  · rintro ⟨j, l⟩ hne
    rw [Grid.read_store, if_neg]
    rintro ⟨⟨rfl, rfl⟩, -⟩
    exact hne rfl

/-! ### One instruction -/

variable {places outs : Finset (Nat × Nat)} {inputs : Grid (DualNumber V)}
  {free : Array (DualNumber V)}

/-- What does not change: adjoint times derivative over slots, inputs and outputs. -/
def balance (places outs : Finset (Nat × Nat)) (inputs : Grid (DualNumber V)) (d : Adjoint V)
    (q : Run (DualNumber V)) : V :=
  pairing d q + weigh places d.run.outputs inputs + weigh outs d.seed q.outputs

/-- An instruction loads from a place that has no adjoint yet, or stores into one that has no
derivative yet. -/
def Untouched (places outs : Finset (Nat × Nat)) (d : Adjoint V) (q : Run (DualNumber V)) :
    ScalarInstr → Prop
  | .input i k _ => (i, k) ∈ places ∧ k < d.run.outputs.width i ∧ d.run.outputs.read 0 i k = 0
  | .output i k _ => (i, k) ∈ outs ∧ k < q.outputs.width i ∧ (q.outputs.read 0 i k).snd = 0
  | _ => True

omit [CommRing V] in
theorem size_slots_write {d : Adjoint V} {q : Run (DualNumber V)}
    (hsize : d.run.slots.size = q.slots.size) (s : Nat) (v : V) :
    (d.write s v).run.slots.size = q.slots.size :=
  (Run.size_slots_write ..).trans hsize

theorem size_slots_increase {d : Adjoint V} {q : Run (DualNumber V)}
    (hsize : d.run.slots.size = q.slots.size) (s : Nat) (v : V) :
    (increase d s v).run.slots.size = q.slots.size :=
  size_slots_write hsize s _

theorem balance_increase {d : Adjoint V} {q : Run (DualNumber V)}
    (hsize : d.run.slots.size = q.slots.size) (s : Nat) (v : V) :
    balance places outs inputs (increase d s v) q
      = balance places outs inputs d q + v * (q.read 0 s).snd := by
  rw [balance, pairing_increase d q hsize]
  change pairing d q + _ + weigh places d.run.outputs inputs + weigh outs d.seed q.outputs = _
  rw [balance]
  ring

/-- What is written into a slot takes the place of the adjoint that is cleared on the way back. -/
theorem balance_write {d : Adjoint V} {q : Run (DualNumber V)}
    (hsize : d.run.slots.size = q.slots.size) (s : Nat) (x : DualNumber V) :
    balance places outs inputs d (q.write s x)
      = balance places outs inputs (d.write s 0) q + d.read 0 s * x.snd := by
  rw [balance, balance, pairing_write d q hsize, pairing_write_run d q hsize, Run.outputs_write]
  change _ = _ + weigh places d.run.outputs inputs + weigh outs d.seed q.outputs + _
  ring

/-- **One instruction back** leaves the balance as it is. -/
theorem balance_pull (hA : A.Differentiates) {d : Adjoint V} {q : Run (DualNumber V)} {instr : ScalarInstr}
    (hsize : d.run.slots.size = q.slots.size) (hfree : ∀ k, (free.getD k 0).snd = 0)
    (huntouched : Untouched places outs d q instr) :
    balance places outs inputs (pull A d (instr, recordOf A q instr)) q
      = balance places outs inputs d (dualStep A inputs free q instr) := by
  cases instr with
  | input i k result =>
    obtain ⟨hp, hwidth, hzero⟩ := huntouched
    have hstep : dualStep A inputs free q (.input i k result)
        = q.write result (inputs.read 0 i k) := rfl
    -- what the slot is loaded with is handed over to the place that it is loaded from
    have hpull : balance places outs inputs
          (pull A d (.input i k result, recordOf A q (.input i k result))) q
        = pairing (d.write result 0) q
          + weigh places (d.run.outputs.store i k (d.read 0 result)) inputs
          + weigh outs d.seed q.outputs := rfl
    rw [hpull, hstep, weigh_store_left hp inputs hwidth hzero, balance_write hsize]
    change _ = pairing (d.write result 0) q + weigh places d.run.outputs inputs
      + weigh outs d.seed q.outputs + _
    ring
  | output i k a =>
    obtain ⟨hp, hwidth, hzero⟩ := huntouched
    have hstep : dualStep A inputs free q (.output i k a) = q.store i k (q.read 0 a) := rfl
    have hpull : pull A d (.output i k a, recordOf A q (.output i k a))
        = increase d a (d.seed.read 0 i k) := rfl
    rw [hpull, hstep, balance_increase hsize, balance, balance, Run.outputs_store,
      weigh_store_right hp d.seed hwidth hzero]
    change _ = pairing d q + _ + _
    ring
  | constant v result =>
    have hstep : dualStep A inputs free q (.constant v result)
        = q.write result (A.dual.constant v) := rfl
    have hpull : pull A d (.constant v result, recordOf A q (.constant v result))
        = d.write result 0 := rfl
    rw [hpull, hstep, balance_write hsize, hA.snd_dual_constant, mul_zero, add_zero]
  | free k result =>
    have hstep : dualStep A inputs free q (.free k result)
        = q.write result (free.getD k 0) := rfl
    have hpull : pull A d (.free k result, recordOf A q (.free k result))
        = d.write result 0 := rfl
    rw [hpull, hstep, balance_write hsize, hfree k, mul_zero, add_zero]
  | unary op a result =>
    have hstep : dualStep A inputs free q (.unary op a result)
        = q.write result (A.dual.unary op (q.read 0 a)) := rfl
    have hpull : pull A d (.unary op a result, recordOf A q (.unary op a result))
        = increase (d.write result 0) a
          (A.unarySlope op (q.read 0 a).fst (A.unary op (q.read 0 a).fst) * d.read 0 result) :=
      rfl
    rw [hpull, hstep, balance_increase (size_slots_write hsize _ _), balance_write hsize,
      hA.snd_dual_unary]
    ring
  | binary op a b result =>
    have hstep : dualStep A inputs free q (.binary op a b result)
        = q.write result (A.dual.binary op (q.read 0 a) (q.read 0 b)) := rfl
    have hpull : pull A d (.binary op a b result, recordOf A q (.binary op a b result))
        = increase (increase (d.write result 0) a
            (A.binarySlope op .left (q.read 0 a).fst (q.read 0 b).fst
              (A.binary op (q.read 0 a).fst (q.read 0 b).fst) * d.read 0 result))
          b (A.binarySlope op .right (q.read 0 a).fst (q.read 0 b).fst
            (A.binary op (q.read 0 a).fst (q.read 0 b).fst) * d.read 0 result) := rfl
    have hcleared := size_slots_write hsize result 0
    rw [hpull, hstep, balance_increase (size_slots_increase hcleared _ _), balance_increase hcleared,
      balance_write hsize, hA.snd_dual_binary]
    ring

/-! ### Runs -/

/-- The place that an instruction loads. -/
def loads? : ScalarInstr → Option (Nat × Nat)
  | .input i k _ => some (i, k)
  | _ => none

/-- The place that an instruction stores. -/
def stores? : ScalarInstr → Option (Nat × Nat)
  | .output i k _ => some (i, k)
  | _ => none

theorem size_pull (d : Adjoint V) (entry : ScalarInstr × Record V) :
    (pull A d entry).run.slots.size = d.run.slots.size := by
  obtain ⟨instr, record⟩ := entry
  cases instr <;> simp [pull, increase, Adjoint.write]

theorem width_pull (d : Adjoint V) (entry : ScalarInstr × Record V) (i : Nat) :
    (pull A d entry).run.outputs.width i = d.run.outputs.width i := by
  obtain ⟨instr, record⟩ := entry
  cases instr <;> simp [pull, increase, Adjoint.write]

theorem size_outputs_pull (d : Adjoint V) (entry : ScalarInstr × Record V) :
    (pull A d entry).run.outputs.size = d.run.outputs.size := by
  obtain ⟨instr, record⟩ := entry
  cases instr <;> simp [pull, increase, Adjoint.write, Run.write, Run.store, Grid.store]

/-- Only the instruction that loads a place changes its adjoint. -/
theorem outputs_pull {d : Adjoint V} {instr : ScalarInstr} {record : Record V} {i k : Nat}
    (h : loads? instr ≠ some (i, k)) :
    (pull A d (instr, record)).run.outputs.read 0 i k = d.run.outputs.read 0 i k := by
  cases instr with
  | input j l result =>
    change (d.run.outputs.store j l (d.read 0 result)).read 0 i k = _
    rw [Grid.read_store, if_neg]
    rintro ⟨⟨rfl, rfl⟩, -⟩
    exact h rfl
  | output | constant | free | unary | binary => rfl

theorem size_dualStep (q : Run (DualNumber V)) (instr : ScalarInstr) :
    (dualStep A inputs free q instr).slots.size = q.slots.size := by
  cases instr <;> simp [dualStep, execute]

theorem width_dualStep (q : Run (DualNumber V)) (instr : ScalarInstr) (i : Nat) :
    (dualStep A inputs free q instr).outputs.width i = q.outputs.width i :=
  width_execute _ _ _ _ q instr i

/-- Only the instruction that stores into a place changes it. -/
theorem outputs_dualStep {q : Run (DualNumber V)} {instr : ScalarInstr} {i k : Nat}
    (h : stores? instr ≠ some (i, k)) :
    (dualStep A inputs free q instr).outputs.read 0 i k = q.outputs.read 0 i k := by
  cases instr with
  | output j l a =>
    change (q.outputs.store j l (q.read 0 a)).read 0 i k = _
    rw [Grid.read_store, if_neg]
    rintro ⟨⟨rfl, rfl⟩, -⟩
    exact h rfl
  | input | constant | free | unary | binary => rfl

section PullBack

variable {q : Run (DualNumber V)} {d : Adjoint V} {instrs : List ScalarInstr}

theorem size_pullBack :
    (pullBack A inputs free q instrs d).run.slots.size = d.run.slots.size := by
  induction instrs generalizing q with
  | nil => rfl
  | cons instr rest ih => rw [pullBack, size_pull, ih]

theorem width_pullBack (i : Nat) :
    (pullBack A inputs free q instrs d).run.outputs.width i = d.run.outputs.width i := by
  induction instrs generalizing q with
  | nil => rfl
  | cons instr rest ih => rw [pullBack, width_pull, ih]

theorem size_outputs_pullBack :
    (pullBack A inputs free q instrs d).run.outputs.size = d.run.outputs.size := by
  induction instrs generalizing q with
  | nil => rfl
  | cons instr rest ih => rw [pullBack, size_outputs_pull, ih]

theorem outputs_pullBack {i k : Nat} (h : (i, k) ∉ instrs.filterMap loads?) :
    (pullBack A inputs free q instrs d).run.outputs.read 0 i k = d.run.outputs.read 0 i k := by
  induction instrs generalizing q with
  | nil => rfl
  | cons instr rest ih =>
    rw [List.mem_filterMap] at h
    rw [pullBack, outputs_pull fun hload => h ⟨instr, by simp, hload⟩, ih]
    rw [List.mem_filterMap]
    rintro ⟨other, hother, hload⟩
    exact h ⟨other, by simp [hother], hload⟩

/-- The instructions load from places that have no adjoint yet, and from none of them twice. -/
def LoadsOnce (places : Finset (Nat × Nat)) (d : Adjoint V) (instrs : List ScalarInstr) : Prop :=
  (instrs.filterMap loads?).Nodup ∧ ∀ p ∈ instrs.filterMap loads?,
    p ∈ places ∧ p.2 < d.run.outputs.width p.1 ∧ d.run.outputs.read 0 p.1 p.2 = 0

/-- The instructions store into places that have no derivative yet, and into none of them twice. -/
def StoresOnce (outs : Finset (Nat × Nat)) (q : Run (DualNumber V)) (instrs : List ScalarInstr) :
    Prop :=
  (instrs.filterMap stores?).Nodup ∧ ∀ p ∈ instrs.filterMap stores?,
    p ∈ outs ∧ p.2 < q.outputs.width p.1 ∧ (q.outputs.read 0 p.1 p.2).snd = 0

theorem LoadsOnce.rest {instr : ScalarInstr} (h : LoadsOnce places d (instr :: instrs)) :
    LoadsOnce places d instrs := by
  obtain ⟨hnodup, hplaces⟩ := h
  rw [List.filterMap_cons] at hnodup hplaces
  split at hnodup
  · rename_i hnone
    rw [hnone] at hplaces
    exact ⟨hnodup, hplaces⟩
  · rename_i p hsome
    rw [hsome] at hplaces
    exact ⟨(List.nodup_cons.mp hnodup).2, fun t ht => hplaces t (List.mem_cons_of_mem _ ht)⟩

theorem StoresOnce.rest {instr : ScalarInstr} (h : StoresOnce outs q (instr :: instrs)) :
    StoresOnce outs (dualStep A inputs free q instr) instrs := by
  obtain ⟨hnodup, hplaces⟩ := h
  rw [List.filterMap_cons] at hnodup hplaces
  split at hnodup
  · rename_i hnone
    rw [hnone] at hplaces
    refine ⟨hnodup, fun p hp => ?_⟩
    rw [width_dualStep, outputs_dualStep (by rw [hnone]; simp)]
    exact hplaces p hp
  · rename_i p hsome
    rw [hsome] at hplaces
    obtain ⟨hfirst, hnodup⟩ := List.nodup_cons.mp hnodup
    refine ⟨hnodup, fun t ht => ?_⟩
    rw [width_dualStep, outputs_dualStep]
    · exact hplaces t (List.mem_cons_of_mem _ ht)
    · rintro heq
      rw [hsome] at heq
      cases heq
      exact hfirst ht

/-- On the way back, every instruction finds its place untouched. -/
theorem untouched_of_once {instr : ScalarInstr} (hloads : LoadsOnce places d (instr :: instrs))
    (hstores : StoresOnce outs q (instr :: instrs)) :
    Untouched places outs
      (pullBack A inputs free (dualStep A inputs free q instr) instrs d) q instr := by
  cases instr with
  | input i k result =>
    obtain ⟨hnodup, hplaces⟩ := hloads
    simp only [loads?, List.filterMap_cons] at hnodup hplaces
    obtain ⟨hp, hwidth, hzero⟩ := hplaces (i, k) (by simp)
    refine ⟨hp, ?_, ?_⟩
    · rw [width_pullBack]
      exact hwidth
    · rw [outputs_pullBack (List.nodup_cons.mp hnodup).1]
      exact hzero
  | output i k a => exact hstores.2 (i, k) (by simp [stores?])
  | constant | free | unary | binary => trivial

variable (inputs free) in
theorem balance_pullBack (hA : A.Differentiates) (hsize : d.run.slots.size = q.slots.size)
    (hfree : ∀ k, (free.getD k 0).snd = 0) (hloads : LoadsOnce places d instrs)
    (hstores : StoresOnce outs q instrs) :
    balance places outs inputs (pullBack A inputs free q instrs d) q
      = balance places outs inputs d (instrs.foldl (dualStep A inputs free) q) := by
  induction instrs generalizing q with
  | nil => rfl
  | cons instr rest ih =>
    rw [List.foldl_cons, ← ih (by rw [size_dualStep, hsize]) hloads.rest hstores.rest, pullBack]
    refine balance_pull hA ?_ hfree (untouched_of_once hloads hstores)
    rw [size_pullBack, hsize]

end PullBack

theorem weigh_start_left (seed : Grid V) (workSize : Nat) (counts : List Nat)
    (b : Grid (DualNumber V)) :
    weigh places (Adjoint.mk seed (.start 0 workSize counts)).run.outputs b = 0 := by
  refine sum_eq_zero fun p _ => ?_
  have : (Run.start (0 : V) workSize counts).outputs.read 0 p.1 p.2 = 0 := Grid.read_fill ..
  rw [this, zero_mul]

theorem weigh_start_right (a : Grid V) (workSize : Nat) (counts : List Nat) :
    weigh outs a (Run.start (0 : DualNumber V) workSize counts).outputs = 0 := by
  refine sum_eq_zero fun p _ => ?_
  have : (Run.start (0 : DualNumber V) workSize counts).outputs.read 0 p.1 p.2 = 0 :=
    Grid.read_fill ..
  rw [this, TrivSqZeroExt.snd_zero, mul_zero]

/-- **Reverse sweeps.** If a tape loads and stores no place twice, then the adjoints of the inputs
are the derivatives, in the direction in which the inputs move, of the weighted outputs. -/
theorem weigh_pullBack (hA : A.Differentiates) (tape : ScalarTape) (dual : Bundle (DualNumber V))
    {freeDual : List (DualNumber V)} (seed : Grid V) {inCounts outCounts : List Nat}
    (hfree : ∀ k, (freeDual.getD k 0).snd = 0)
    (hloads : LoadsOnce places ⟨seed, .start 0 tape.workSize inCounts⟩ tape.instrs)
    (hstores : StoresOnce outs (.start (0 : DualNumber V) tape.workSize outCounts) tape.instrs) :
    weigh places
        (pullBack A (.ofBundle dual) freeDual.toArray (.start 0 tape.workSize outCounts) tape.instrs
          ⟨seed, .start 0 tape.workSize inCounts⟩).run.outputs (.ofBundle dual)
      = weigh outs seed (tape.finish A.dual dual freeDual outCounts).outputs := by
  have hbalance := balance_pullBack (.ofBundle dual) freeDual.toArray hA
    (q := .start 0 tape.workSize outCounts) (d := ⟨seed, .start 0 tape.workSize inCounts⟩)
    (by simp [Run.start]) (by simpa using hfree) hloads hstores
  have hleft : ∀ d : Adjoint V, pairing d (.start 0 tape.workSize outCounts) = 0 := fun d =>
    sum_eq_zero fun s _ => by rw [Run.read_start, TrivSqZeroExt.snd_zero, mul_zero]
  have hright : ∀ q, pairing (Adjoint.mk seed (.start 0 tape.workSize inCounts)) q = 0 := fun q =>
    sum_eq_zero fun s _ => by
      rw [show (Adjoint.mk seed (.start 0 tape.workSize inCounts)).read 0 s = 0 from
        Run.read_start .., zero_mul]
  rw [balance, balance, hleft, hright, weigh_start_left, weigh_start_right] at hbalance
  rw [finish, hA.dual_zero]
  simpa using hbalance

end ScalarTape

end Fluxion
