import Fluxion.Proofs.Schedule.Liveness
import Mathlib.Data.Finset.Card
import Mathlib.Data.Finset.Lattice.Fold
import Mathlib.Order.Lattice.Nat

/-!
# As few slots as the order of instructions allows

When an instruction writes its result, the earlier results that are still to be read have slots, and
so has the new one. No assignment that keeps results until they are read does with fewer slots than
that, and `assignSlots` does with as many: the largest number of results in use at once.

`Liveness` shows that no slot is taken too early. What is shown here is that none is given back too
late: a slot is free as soon as no result in it is to be read any more (`Progress.Tight`). So when a
new slot is made, all the others hold results that are still to be read. The operands of an
instruction do not count among these, since their slots are given back before its result takes one.

## Main definitions

* `Demand.values` — the instructions that have results
* `Demand.waiting` — the earlier results that are read after an instruction
* `Demand.peak` — the largest number of results in use at once
* `Slots.Fits` — an assignment under which every result is kept until it is read

## Main results

* `Slots.Fits.peak_le` — no assignment does with fewer slots
* `Slots.Progress.Tight.step` — one instruction gives back all that it can
* `Slots.fits_assignSlots` — **no live result is overwritten, and no slot is wasted**
-/

namespace Fluxion

variable {demands : List Demand} {now i : Nat}

namespace Demand

/-- The instructions that have results. -/
def values (demands : List Demand) : Finset Nat :=
  (Finset.range demands.length).filter fun i => demands[i]?.any defines

/-- The earlier results that some instruction after number `now` reads. -/
def waiting (demands : List Demand) (now : Nat) : Finset Nat :=
  (values demands).filter fun i => i < now ∧ (demands.drop (now + 1)).any (i ∈ ·.reads)

/-- The largest number of results in use at once: the one that is written, and those waiting. -/
def peak (demands : List Demand) : Nat :=
  (values demands).sup fun now => 1 + (waiting demands now).card

theorem mem_values :
    i ∈ values demands ↔ ∃ d : Demand, demands[i]? = some d ∧ d.defines = true := by
  rw [values, Finset.mem_filter, Finset.mem_range, Option.any_eq_true]
  constructor
  · rintro ⟨-, d, hd, hdefines⟩
    exact ⟨d, hd, hdefines⟩
  · rintro ⟨d, hd, hdefines⟩
    exact ⟨(List.getElem?_eq_some_iff.mp hd).1, d, hd, hdefines⟩

theorem mem_waiting :
    i ∈ waiting demands now ↔ i ∈ values demands ∧ i < now ∧ Slots.IsLive demands (now + 1) i := by
  rw [waiting, Finset.mem_filter, List.any_eq_true]
  refine and_congr_right fun _ => and_congr_right fun _ => ?_
  constructor
  · rintro ⟨d, hd, hi⟩
    have hi : i ∈ d.reads := by simpa using hi
    obtain ⟨j, hj⟩ := List.mem_iff_getElem?.mp hd
    rw [List.getElem?_drop] at hj
    exact ⟨now + 1 + j, d, Nat.le_add_right _ _, hj, hi⟩
  · rintro ⟨j, d, hle, hd, hi⟩
    refine ⟨d, List.mem_iff_getElem?.mpr ⟨j - (now + 1), ?_⟩, by simpa using hi⟩
    rw [List.getElem?_drop, Nat.add_sub_cancel' hle]
    exact hd

/-- Whether instructions read only results of earlier instructions can be looked up. -/
instance : Decidable (WellFormed demands) :=
  decidable_of_iff (∀ x ∈ demands.zipIdx, ∀ r ∈ x.1.reads, r < x.2 ∧ r ∈ values demands) <| by
    constructor
    · intro h i d hd r hr
      obtain ⟨hlt, hvalue⟩ := h (d, i) (List.mk_mem_zipIdx_iff_getElem?.mpr hd) r hr
      exact ⟨hlt, mem_values.mp hvalue⟩
    · rintro h ⟨d, i⟩ hx r hr
      obtain ⟨hlt, hvalue⟩ := h i d (List.mk_mem_zipIdx_iff_getElem?.mp hx) r hr
      exact ⟨hlt, mem_values.mpr hvalue⟩

/-- What is read is a result. -/
theorem WellFormed.mem_values_of_isLive (hwell : WellFormed demands)
    (h : Slots.IsLive demands now i) : i ∈ values demands := by
  obtain ⟨j, d, -, hd, hi⟩ := h
  exact mem_values.mpr (hwell j d hd i hi).2

end Demand

namespace Slots

open Demand (values waiting peak)

/-! ### The least number of slots -/

/-- An assignment for a list of instructions under which every instruction finds what it reads: each
result has a slot below the number of slots, an instruction reads the slots of its operands, and
between a result and an instruction that reads it no other result takes the slot. -/
structure Fits (demands : List Demand) (s : Slots) : Prop where
  length_results : s.results.length = demands.length
  result : ∀ (i : Nat) (d : Demand), demands[i]? = some d →
    (s.results.getD i none).isSome = d.defines
  slot_lt : ∀ i slot, s.results.getD i none = some slot → slot < s.workSize
  arguments : s.arguments = demands.map fun d => d.reads.map fun p => s.results.getD p none
  kept : ∀ (i : Nat) (d : Demand), demands[i]? = some d → ∀ p ∈ d.reads, ∀ k ∈ values demands,
    p < k → k < i → s.results.getD k none ≠ s.results.getD p none

variable {s : Slots}

theorem Fits.exists_slot (h : s.Fits demands) (hi : i ∈ values demands) :
    ∃ slot, s.results.getD i none = some slot ∧ slot < s.workSize := by
  obtain ⟨d, hd, hdefines⟩ := Demand.mem_values.mp hi
  obtain ⟨slot, hslot⟩ := Option.isSome_iff_exists.mp ((h.result i d hd).trans hdefines)
  exact ⟨slot, hslot, h.slot_lt i slot hslot⟩

/-- A result that is read after instruction `now` does not share its slot with a later one that is
written by then. -/
theorem Fits.ne_of_lt (h : s.Fits demands) {p q : Nat} (hq : q ∈ values demands) (hpq : p < q)
    (hnow : q ≤ now) (hlive : IsLive demands (now + 1) p) :
    s.results.getD q none ≠ s.results.getD p none := by
  obtain ⟨j, d, hj, hd, hp⟩ := hlive
  exact h.kept j d hd p hp q hq hpq (by omega)

/-- **No assignment does with fewer slots** than there are results in use at once. -/
theorem Fits.peak_le (h : s.Fits demands) : peak demands ≤ s.workSize := by
  refine Finset.sup_le fun now hnow => ?_
  have hself : now ∉ waiting demands now := fun hmem =>
    Nat.lt_irrefl now (Demand.mem_waiting.mp hmem).2.1
  rw [Nat.add_comm, ← Finset.card_insert_of_notMem hself, ← Finset.card_range s.workSize]
  have hvalue : ∀ p ∈ insert now (waiting demands now), p ∈ values demands ∧ p ≤ now := by
    intro p hp
    rcases Finset.mem_insert.mp hp with rfl | hp
    · exact ⟨hnow, Nat.le_refl _⟩
    · obtain ⟨hp, hlt, -⟩ := Demand.mem_waiting.mp hp
      exact ⟨hp, Nat.le_of_lt hlt⟩
  -- of two results in use, the earlier one is waiting
  have hne : ∀ p ∈ insert now (waiting demands now), ∀ q ∈ insert now (waiting demands now), p < q →
      s.results.getD q none ≠ s.results.getD p none := by
    intro p hp q hq hpq
    obtain ⟨hqv, hqnow⟩ := hvalue q hq
    rcases Finset.mem_insert.mp hp with rfl | hp
    · omega
    · exact h.ne_of_lt hqv hpq hqnow (Demand.mem_waiting.mp hp).2.2
  refine Finset.card_le_card_of_injOn (fun p => (s.results.getD p none).getD 0) ?_ ?_
  · intro p hp
    obtain ⟨slot, hslot, hlt⟩ := h.exists_slot (hvalue p hp).1
    show (s.results.getD p none).getD 0 ∈ (Finset.range s.workSize : Set Nat)
    rw [hslot]
    simpa using hlt
  · intro p hp q hq heq
    obtain ⟨slot, hslot, -⟩ := h.exists_slot (hvalue p hp).1
    obtain ⟨other, hother, -⟩ := h.exists_slot (hvalue q hq).1
    simp only [hslot, hother, Option.getD_some] at heq
    rcases Nat.lt_trichotomy p q with hpq | hpq | hpq
    · exact absurd (by rw [hslot, hother, heq]) (hne p hp q hq hpq)
    · exact hpq
    · exact absurd (by rw [hslot, hother, heq]) (hne q hq p hp hpq)

/-! ### No slot is wasted -/

/-- Every slot is free or holds a result that is still to be read, and there are no more slots than
there were results in use at once. -/
structure Progress.Tight (demands : List Demand) (now : Nat) (p : Progress) : Prop where
  held : ∀ slot < p.workSize,
    slot ∈ p.free ∨ ∃ i, p.results.getD i none = some slot ∧ IsLive demands now i
  workSize_le : p.workSize ≤ peak demands

/-- When the slots of the operands have been given back, the others hold results that are read later
on. -/
theorem Progress.Tight.release {p : Progress} (h : p.Tight demands now)
    (hwell : Demand.WellFormed demands) {d : Demand} (hd : demands[now]? = some d) {slot : Nat}
    (hslot : slot < p.workSize) :
    slot ∈ Slots.release (lastReaders demands) p.results now d.reads p.free ∨
      ∃ i, p.results.getD i none = some slot ∧ IsLive demands (now + 1) i := by
  rw [release_eq, mem_foldl_releaseOne]
  rcases h.held slot hslot with hfree | ⟨i, hi, hlive⟩
  · exact .inl (.inl hfree)
  by_cases hlater : IsLive demands (now + 1) i
  · exact .inr ⟨i, hi, hlater⟩
  · obtain ⟨j, e, hj, he, hie⟩ := hlive
    have hjnow : j = now := by
      by_contra hne
      exact hlater ⟨j, e, by omega, he, hie⟩
    rw [hjnow, hd] at he
    obtain rfl : d = e := Option.some.inj he
    have hlength : i < demands.length := by
      have := (List.getElem?_eq_some_iff.mp hd).1
      have := (hwell now d hd i hie).1
      omega
    refine .inl (.inr ⟨i, List.mem_eraseDups.mpr hie, ?_, hi⟩)
    rw [← Bool.not_eq_true, isRead_lastReaders hlength]
    exact hlater

theorem getD_push_of_eq_some {results : Array (Option Nat)} {slot : Nat} (other : Option Nat)
    (h : results.getD i none = some slot) : (results.push other).getD i none = some slot := by
  rw [getD_push, if_neg, h]
  rintro rfl
  rw [Array.getD_eq_getD_getElem?, Array.getElem?_eq_none (Nat.le_refl _)] at h
  contradiction

/-- The slot of the new result holds a result that is to be read, or else it is given back. -/
theorem held_taken {results : Array (Option Nat)} (hsize : results.size = now)
    (hlength : now < demands.length) (slot : Nat) (rest : List Nat) :
    slot ∈ (if isRead (lastReaders demands) now now then rest else slot :: rest) ∨
      ∃ i, (results.push (some slot)).getD i none = some slot ∧ IsLive demands (now + 1) i := by
  split
  · rename_i hread
    refine .inr ⟨now, ?_, (isRead_lastReaders hlength now).mp hread⟩
    rw [getD_push, if_pos hsize.symm]
  · exact .inl List.mem_cons_self

/-- Slots that hold results to be read later on are no more than these results. -/
theorem le_card_waiting (hwell : Demand.WellFormed demands) {results : Array (Option Nat)} {n : Nat}
    (hsize : results.size = now) (h : ∀ slot < n, ∃ i, results.getD i none = some slot ∧
      IsLive demands (now + 1) i) : n ≤ (waiting demands now).card := by
  rw [← Finset.card_range n]
  refine Finset.card_le_card_of_surjOn (fun i => (results.getD i none).getD 0) fun slot hslot => ?_
  obtain ⟨i, hi, hlive⟩ := h slot (Finset.mem_range.mp hslot)
  have hlt : i < now := by
    by_contra hle
    rw [Array.getD_eq_getD_getElem?, Array.getElem?_eq_none (by omega)] at hi
    contradiction
  refine ⟨i, Demand.mem_waiting.mpr ⟨hwell.mem_values_of_isLive hlive, hlt, hlive⟩, ?_⟩
  show (results.getD i none).getD 0 = slot
  rw [hi]
  rfl

/-- **One instruction gives back all that it can.** -/
theorem Progress.Tight.step {p : Progress} (h : p.Tight demands now) (hsize : p.results.size = now)
    (hwell : Demand.WellFormed demands) {d : Demand} (hd : demands[now]? = some d) :
    (Slots.step (lastReaders demands) p d).Tight demands (now + 1) := by
  have hlength : now < demands.length := (List.getElem?_eq_some_iff.mp hd).1
  have hrelease := fun slot (hslot : slot < p.workSize) => h.release hwell hd hslot
  have hcases := step_cases (lastReaders demands) p d
  dsimp only at hcases
  rw [hsize] at hcases
  rcases hcases with ⟨-, heq⟩ | ⟨hdefines, hfree, heq⟩ | ⟨taken, rest, -, hfree, heq⟩
  · rw [heq]
    refine ⟨fun slot hslot => (hrelease slot hslot).imp_right ?_, h.workSize_le⟩
    rintro ⟨i, hi, hlive⟩
    exact ⟨i, getD_push_of_eq_some none hi, hlive⟩
  · -- no slot is free, so each of them holds a result that is read later on
    have hheld : ∀ slot < p.workSize, ∃ i, p.results.getD i none = some slot ∧
        IsLive demands (now + 1) i := fun slot hslot =>
      (hrelease slot hslot).resolve_left (hfree ▸ List.not_mem_nil)
    rw [heq]
    refine ⟨fun slot hslot => ?_, ?_⟩
    · rcases Nat.lt_succ_iff_lt_or_eq.mp hslot with hslot | rfl
      · obtain ⟨i, hi, hlive⟩ := hheld slot hslot
        exact .inr ⟨i, getD_push_of_eq_some _ hi, hlive⟩
      · exact held_taken hsize hlength p.workSize []
    · calc p.workSize + 1 ≤ 1 + (waiting demands now).card := by
            have := le_card_waiting hwell hsize hheld
            omega
        _ ≤ peak demands :=
            Finset.le_sup (f := fun now => 1 + (waiting demands now).card)
              (Demand.mem_values.mpr ⟨d, hd, hdefines⟩)
  · rw [heq]
    refine ⟨fun slot hslot => ?_, h.workSize_le⟩
    by_cases htaken : slot = taken
    · exact htaken ▸ held_taken hsize hlength taken rest
    · rcases hrelease slot hslot with hmem | ⟨i, hi, hlive⟩
      · rw [hfree] at hmem
        have hrest := (List.mem_cons.mp hmem).resolve_left htaken
        refine .inl ?_
        dsimp only
        split
        · exact hrest
        · exact List.mem_cons_of_mem taken hrest
      · exact .inr ⟨i, getD_push_of_eq_some _ hi, hlive⟩

/-- **No slot is wasted** when all instructions have slots. -/
theorem Progress.tight_foldl (hwell : Demand.WellFormed demands) :
    (demands.foldl (Slots.step (lastReaders demands)) {}).Tight demands demands.length :=
  (Progress.foldl_induction (motive := fun now p => p.Valid demands now ∧ p.Tight demands now)
    ⟨Progress.valid_start demands, by simp, Nat.zero_le _⟩
    fun _ _ _ hd h => ⟨h.1.step hwell hd, h.2.step h.1.size_results hwell hd⟩).2

/-! ### The assignment -/

/-- No live result is overwritten. -/
theorem fits_assignSlots (hwell : Demand.WellFormed demands) :
    (assignSlots demands).Fits demands := by
  have h := Progress.valid_foldl hwell
  have hget : ∀ i, (assignSlots demands).results.getD i none
      = (demands.foldl (Slots.step (lastReaders demands)) {}).results.getD i none := by
    intro i
    rw [assignSlots, List.getD_eq_getElem?_getD, Array.getElem?_toList, Array.getD_eq_getD_getElem?]
  refine ⟨?_, ?_, ?_, ?_, ?_⟩
  · rw [assignSlots, Array.length_toList, h.size_results]
  · intro i d hd
    obtain ⟨slot, hslot, hdefines⟩ := h.result i d (List.getElem?_eq_some_iff.mp hd).1 hd
    rw [hget, Array.getD_eq_getD_getElem?, hslot]
    exact hdefines
  · intro i slot hslot
    rw [hget] at hslot
    exact h.slot_lt i slot hslot
  · refine List.ext_getElem? fun i => ?_
    rw [assignSlots, Array.getElem?_toList, List.getElem?_map]
    cases hd : demands[i]? with
    | none =>
      rw [Array.getElem?_eq_none]
      · rfl
      · rw [h.size_arguments]
        exact List.getElem?_eq_none_iff.mp hd
    | some d =>
      rw [h.argument i d (List.getElem?_eq_some_iff.mp hd).1 hd, Option.map_some]
      exact congrArg some (List.map_congr_left fun p _ => (hget p).symm)
  · intro i d hd p hp k hk hpk hki heq
    obtain ⟨e, he, hdefines⟩ := Demand.mem_values.mp hk
    obtain ⟨slot, hslot, hsome⟩ := h.result k e (List.getElem?_eq_some_iff.mp he).1 he
    obtain ⟨taken, rfl⟩ := Option.isSome_iff_exists.mp (hsome.trans hdefines)
    have hk : (demands.foldl (Slots.step (lastReaders demands)) {}).results.getD k none
        = some taken := by
      rw [Array.getD_eq_getD_getElem?, hslot]
      rfl
    rw [hget, hget] at heq
    exact h.kept p k taken hpk (heq ▸ hk) hk ⟨i, d, hki, hd, hp⟩

/-- **No live result is overwritten, and no slot is wasted.** -/
theorem assignSlots_optimal (hwell : Demand.WellFormed demands) :
    (assignSlots demands).Fits demands ∧ (assignSlots demands).workSize = peak demands ∧
      ∀ other : Slots, other.Fits demands → (assignSlots demands).workSize ≤ other.workSize := by
  have hfits := fits_assignSlots hwell
  have hpeak : (assignSlots demands).workSize = peak demands :=
    Nat.le_antisymm (Progress.tight_foldl hwell).workSize_le hfits.peak_le
  exact ⟨hfits, hpeak, fun other hother => hpeak ▸ hother.peak_le⟩

/-- Two leaves, their product, its double, and the store of that: the product takes the slot of a
leaf, and its double the slot of the product. -/
theorem assignSlots_optimal_chain :
    let demands : List Demand :=
      [⟨[], true⟩, ⟨[], true⟩, ⟨[0, 1], true⟩, ⟨[2, 2], true⟩, ⟨[3], false⟩]
    Demand.WellFormed demands ∧ (assignSlots demands).Fits demands ∧
      (assignSlots demands).workSize = 2 ∧
      ∀ other : Slots, other.Fits demands → 2 ≤ other.workSize := by
  intro demands
  have hwell : Demand.WellFormed demands := by decide
  obtain ⟨hfits, hpeak, hleast⟩ := assignSlots_optimal hwell
  have htwo : peak demands = 2 := by decide
  rw [hpeak, htwo] at hleast
  exact ⟨hwell, hfits, hpeak.trans htwo, hleast⟩

end Slots

end Fluxion
