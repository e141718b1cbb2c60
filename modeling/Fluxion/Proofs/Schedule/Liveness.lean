import Fluxion.Schedule.Slots
import Mathlib.Data.List.Nodup

/-!
# Slots are not overwritten while they are read

`assignSlots` gives slots back after the last instruction that reads them and hands them out again.
What makes this right is an invariant that relates the free slots to the *live* results: those that
some instruction still to come reads. Live results have slots of their own, and none of these slots
is free.

## Main definitions

* `Demand.WellFormed` — instructions read results of earlier instructions
* `Slots.IsLive` — an instruction from a number on reads the result
* `Slots.Progress.Valid` — the invariant

## Main results

* `Slots.isRead_lastReaders` — the table of last readers tells which results are read later on
* `Slots.step_cases` — what one instruction does to the assignment
* `Slots.Progress.Valid.step` — it keeps the invariant
* `Slots.Progress.valid_foldl` — so it holds when all instructions have slots
-/

namespace Fluxion

/-- Every instruction reads only results of earlier instructions. -/
def Demand.WellFormed (demands : List Demand) : Prop :=
  ∀ (i : Nat) (d : Demand), demands[i]? = some d → ∀ r ∈ d.reads,
    r < i ∧ ∃ e : Demand, demands[r]? = some e ∧ e.defines = true

namespace Slots

/-- Instruction `now` or a later one reads the result of instruction `i`. -/
def IsLive (demands : List Demand) (now i : Nat) : Prop :=
  ∃ (j : Nat) (d : Demand), now ≤ j ∧ demands[j]? = some d ∧ i ∈ d.reads

theorem IsLive.mono {demands : List Demand} {now now' i : Nat} (h : IsLive demands now' i)
    (hle : now ≤ now') : IsLive demands now i := by
  obtain ⟨j, d, hj, hd, hi⟩ := h
  exact ⟨j, d, Nat.le_trans hle hj, hd, hi⟩

/-! ### Last readers -/

/-- The instructions that read result `i`, in order and with repetitions. -/
def readersOf (demands : List Demand) (i : Nat) : List Nat :=
  demands.zipIdx.flatMap fun (d, reader) => d.reads.filterMap fun k => if k = i then some reader else none

theorem mem_readersOf {demands : List Demand} {i j : Nat} :
    j ∈ readersOf demands i ↔ ∃ d : Demand, demands[j]? = some d ∧ i ∈ d.reads := by
  simp only [readersOf, List.mem_flatMap, List.mem_filterMap, Prod.exists,
    List.mem_zipIdx_iff_getElem?]
  constructor
  · rintro ⟨d, k, hd, r, hr, hif⟩
    split at hif
    · cases hif
      rename_i hri
      exact ⟨d, hd, hri ▸ hr⟩
    · cases hif
  · rintro ⟨d, hd, hi⟩
    exact ⟨d, j, hd, i, hi, if_pos rfl⟩

theorem pairwise_readersOf (demands : List Demand) (i : Nat) :
    (readersOf demands i).Pairwise (· ≤ ·) := by
  rw [readersOf, List.pairwise_flatMap]
  refine ⟨?_, ?_⟩
  · rintro ⟨d, reader⟩ -
    refine List.pairwise_of_forall_mem_list fun x hx y hy => ?_
    simp only [List.mem_filterMap, Option.ite_none_right_eq_some, Option.some.injEq] at hx hy
    obtain ⟨-, -, -, rfl⟩ := hx
    obtain ⟨-, -, -, rfl⟩ := hy
    exact Nat.le_refl _
  · have hpairs : (demands.zipIdx.map Prod.snd).Pairwise (· < ·) := by
      rw [List.zipIdx_map_snd]
      exact List.pairwise_lt_range'
    refine (List.pairwise_map.mp hpairs).imp fun {a b} hab x hx y hy => ?_
    simp only [List.mem_filterMap, Option.ite_none_right_eq_some, Option.some.injEq] at hx hy
    obtain ⟨-, -, -, rfl⟩ := hx
    obtain ⟨-, -, -, rfl⟩ := hy
    exact Nat.le_of_lt hab

theorem getD_lastReaders {demands : List Demand} {i : Nat} (hi : i < demands.length) :
    (lastReaders demands).getD i none = (readersOf demands i).getLast? := by
  have hbucket := getElem?_buckets demands.length
    (demands.zipIdx.flatMap fun entry => entry.1.reads.map (·, entry.2)) i
  rw [if_pos hi] at hbucket
  have hreaders : (demands.zipIdx.flatMap fun entry => entry.1.reads.map (·, entry.2)).filterMap
      (fun entry => if entry.1 = i then some entry.2 else none) = readersOf demands i := by
    rw [readersOf, List.filterMap_flatMap]
    congr 1
    funext entry
    rw [List.filterMap_map]
    rfl
  rw [Array.getD_eq_getD_getElem?, lastReaders, List.getElem?_toArray, List.getElem?_map,
    Array.getElem?_toList, hbucket, hreaders]
  rfl

/-- The last of increasing numbers is beyond a bound iff one of them is. -/
theorem any_getLast?_iff {numbers : List Nat} (h : numbers.Pairwise (· ≤ ·)) (now : Nat) :
    numbers.getLast?.any (now < ·) = true ↔ ∃ j ∈ numbers, now < j := by
  rcases List.eq_nil_or_concat numbers with rfl | ⟨front, last, rfl⟩
  · simp
  · rw [List.concat_eq_append] at h ⊢
    rw [List.getLast?_append, List.getLast?_singleton, Option.some_or, Option.any_some,
      decide_eq_true_eq]
    constructor
    · intro hlast
      exact ⟨last, by simp, hlast⟩
    · rintro ⟨j, hj, hnow⟩
      rcases List.mem_append.mp hj with hj | hj
      · exact Nat.lt_of_lt_of_le hnow ((List.pairwise_append.mp h).2.2 j hj last (by simp))
      · exact List.mem_singleton.mp hj ▸ hnow

theorem isRead_lastReaders {demands : List Demand} {i : Nat} (hi : i < demands.length)
    (now : Nat) : isRead (lastReaders demands) now i = true ↔ IsLive demands (now + 1) i := by
  rw [isRead, getD_lastReaders hi, any_getLast?_iff (pairwise_readersOf demands i)]
  constructor
  · rintro ⟨j, hj, hnow⟩
    obtain ⟨d, hd, hid⟩ := mem_readersOf.mp hj
    exact ⟨j, d, hnow, hd, hid⟩
  · rintro ⟨j, d, hnow, hd, hid⟩
    exact ⟨j, mem_readersOf.mpr ⟨d, hd, hid⟩, hnow⟩

/-! ### Giving slots back -/

/-- Give back one slot, if it is not read after number `now`. -/
def releaseOne (last : Array (Option Nat)) (results : Array (Option Nat)) (now : Nat)
    (free : List Nat) (i : Nat) : List Nat :=
  if isRead last now i then free
  else match results.getD i none with
    | none => free
    | some slot => slot :: free

theorem release_eq (last : Array (Option Nat)) (results : Array (Option Nat)) (now : Nat)
    (reads free : List Nat) :
    release last results now reads free
      = reads.eraseDups.foldl (releaseOne last results now) free := rfl

theorem mem_releaseOne {last results : Array (Option Nat)} {now i s : Nat} {free : List Nat} :
    s ∈ releaseOne last results now free i ↔
      s ∈ free ∨ isRead last now i = false ∧ results.getD i none = some s := by
  unfold releaseOne
  cases hread : isRead last now i with
  | true => simp
  | false =>
    cases hresult : results.getD i none with
    | none => simp
    | some slot => simp [or_comm, eq_comm]

theorem nodup_releaseOne {last results : Array (Option Nat)} {now i : Nat} {free : List Nat}
    (hfree : free.Nodup) (hi : ∀ s, results.getD i none = some s → s ∉ free) :
    (releaseOne last results now free i).Nodup := by
  unfold releaseOne
  split
  · exact hfree
  · split
    · exact hfree
    · rename_i slot hslot
      exact List.nodup_cons.mpr ⟨hi slot hslot, hfree⟩

theorem mem_foldl_releaseOne {last results : Array (Option Nat)} {now s : Nat}
    {reads free : List Nat} :
    s ∈ reads.foldl (releaseOne last results now) free ↔
      s ∈ free ∨ ∃ i ∈ reads, isRead last now i = false ∧ results.getD i none = some s := by
  induction reads generalizing free with
  | nil => simp
  | cons i rest ih =>
    rw [List.foldl_cons, ih, mem_releaseOne, or_assoc]
    simp only [List.mem_cons, exists_eq_or_imp]

theorem nodup_foldl_releaseOne {last results : Array (Option Nat)} {now : Nat}
    {reads free : List Nat} (hreads : reads.Nodup) (hfree : free.Nodup)
    (hout : ∀ i ∈ reads, ∀ s, results.getD i none = some s → s ∉ free)
    (hown : ∀ i ∈ reads, ∀ j ∈ reads, ∀ s, results.getD i none = some s →
      results.getD j none = some s → i = j) :
    (reads.foldl (releaseOne last results now) free).Nodup := by
  induction reads generalizing free with
  | nil => exact hfree
  | cons i rest ih =>
    obtain ⟨hi, hrest⟩ := List.nodup_cons.mp hreads
    rw [List.foldl_cons]
    refine ih hrest (nodup_releaseOne hfree (hout i (by simp))) ?_ ?_
    · intro j hj s hs hmem
      rcases mem_releaseOne.mp hmem with hmem | ⟨-, hmem⟩
      · exact hout j (List.mem_cons_of_mem i hj) s hs hmem
      · have hij := hown i (by simp) j (List.mem_cons_of_mem i hj) s hmem hs
        exact hi (hij ▸ hj)
    · intro j hj k hk
      exact hown j (List.mem_cons_of_mem i hj) k (List.mem_cons_of_mem i hk)

theorem nodup_eraseDups {α : Type} [DecidableEq α] (items : List α) : items.eraseDups.Nodup := by
  induction h : items.length using Nat.strongRecOn generalizing items with
  | _ n ih =>
    cases items with
    | nil => exact List.nodup_nil
    | cons k rest =>
      rw [List.eraseDups_cons, List.nodup_cons]
      refine ⟨by simp [List.mem_eraseDups], ih _ ?_ _ rfl⟩
      rw [← h, List.length_cons]
      exact Nat.lt_succ_of_le (List.length_filter_le _ rest)

/-! ### One instruction -/

/-- What an instruction does to the assignment, by what is free when its operands' slots have been
given back. -/
theorem step_cases (last : Array (Option Nat)) (p : Progress) (d : Demand) :
    let arguments := p.arguments.push (d.reads.map (p.results.getD · none))
    let free := Slots.release last p.results p.results.size d.reads p.free
    let kept := isRead last p.results.size p.results.size
    (d.defines = false ∧ step last p d = ⟨p.results.push none, arguments, free, p.workSize⟩) ∨
    (d.defines = true ∧ free = [] ∧ step last p d = ⟨p.results.push (some p.workSize), arguments,
      if kept then [] else [p.workSize], p.workSize + 1⟩) ∨
    ∃ slot rest, d.defines = true ∧ free = slot :: rest ∧
      step last p d = ⟨p.results.push (some slot), arguments,
        if kept then rest else slot :: rest, p.workSize⟩ := by
  obtain ⟨results, arguments, free, workSize⟩ := p
  dsimp only
  cases hdefines : d.defines with
  | false =>
    refine .inl ⟨rfl, ?_⟩
    simp only [step, hdefines, Bool.false_eq_true, if_false]
  | true =>
    refine .inr ?_
    cases hfree : Slots.release last results results.size d.reads free with
    | nil =>
      refine .inl ⟨rfl, rfl, ?_⟩
      simp only [step, hdefines, hfree, if_true]
    | cons slot rest =>
      refine .inr ⟨slot, rest, rfl, rfl, ?_⟩
      simp only [step, hdefines, hfree, if_true]

/-! ### The invariant -/

/-- What holds of the assignment for the first `now` instructions. The clause `kept` is what a run
of the program needs: while a result is still to be read, no other result takes its slot. -/
structure Progress.Valid (demands : List Demand) (now : Nat) (p : Progress) : Prop where
  size_results : p.results.size = now
  size_arguments : p.arguments.size = now
  result : ∀ (i : Nat) (d : Demand), i < now → demands[i]? = some d →
    ∃ slot, p.results[i]? = some slot ∧ slot.isSome = d.defines
  slot_lt : ∀ i s, p.results.getD i none = some s → s < p.workSize
  argument : ∀ (i : Nat) (d : Demand), i < now → demands[i]? = some d →
    p.arguments[i]? = some (d.reads.map (p.results.getD · none))
  free_nodup : p.free.Nodup
  free_lt : ∀ s ∈ p.free, s < p.workSize
  live_notMem_free : ∀ i s, p.results.getD i none = some s → IsLive demands now i → s ∉ p.free
  live_injective : ∀ i j s, p.results.getD i none = some s → p.results.getD j none = some s →
    IsLive demands now i → IsLive demands now j → i = j
  kept : ∀ i j s, i < j → p.results.getD i none = some s → p.results.getD j none = some s →
    ¬ IsLive demands (j + 1) i

theorem Progress.valid_start (demands : List Demand) : Progress.Valid demands 0 {} where
  size_results := rfl
  size_arguments := rfl
  result := by simp
  slot_lt := by simp
  argument := by simp
  free_nodup := List.nodup_nil
  free_lt := by simp
  live_notMem_free := by simp
  live_injective := by simp
  kept := by simp

variable {demands : List Demand} {now : Nat}

/-- Slots of results after one more result. -/
theorem getD_push (results : Array (Option Nat)) (slot : Option Nat) (i : Nat) :
    (results.push slot).getD i none
      = if i = results.size then slot else results.getD i none := by
  rw [Array.getD_eq_getD_getElem?, Array.getElem?_push, Array.getD_eq_getD_getElem?]
  split <;> rfl

/-- What is free when the operands of an instruction have been given back: no slot twice, and none
that is read later on. -/
theorem Progress.Valid.release {p : Progress} (h : p.Valid demands now)
    (hwell : Demand.WellFormed demands) {d : Demand} (hd : demands[now]? = some d) :
    let free := Slots.release (lastReaders demands) p.results now d.reads p.free
    free.Nodup ∧ (∀ s ∈ free, s < p.workSize) ∧
      ∀ i s, p.results.getD i none = some s → IsLive demands (now + 1) i → s ∉ free := by
  have hlength : now < demands.length := (List.getElem?_eq_some_iff.mp hd).1
  have hlive : ∀ i ∈ d.reads, IsLive demands now i := fun i hi =>
    ⟨now, d, Nat.le_refl _, hd, hi⟩
  have hreads : ∀ i ∈ d.reads.eraseDups, i ∈ d.reads := fun i hi => List.mem_eraseDups.mp hi
  dsimp only
  rw [release_eq]
  refine ⟨?_, ?_, ?_⟩
  · refine nodup_foldl_releaseOne (nodup_eraseDups d.reads) h.free_nodup ?_ ?_
    · intro i hi s hs
      exact h.live_notMem_free i s hs (hlive i (hreads i hi))
    · intro i hi j hj s hsi hsj
      exact h.live_injective i j s hsi hsj (hlive i (hreads i hi)) (hlive j (hreads j hj))
  · intro s hs
    rcases mem_foldl_releaseOne.mp hs with hs | ⟨i, -, -, hs⟩
    · exact h.free_lt s hs
    · exact h.slot_lt i s hs
  · intro i s hs hi hmem
    rcases mem_foldl_releaseOne.mp hmem with hmem | ⟨j, hj, hread, hsj⟩
    · exact h.live_notMem_free i s hs (hi.mono (Nat.le_succ now)) hmem
    · have hij := h.live_injective i j s hs hsj (hi.mono (Nat.le_succ now)) (hlive j (hreads j hj))
      have hj' : j < demands.length := by
        have := (hwell now d hd j (hreads j hj)).1
        omega
      subst hij
      have := (isRead_lastReaders hj' now).mpr hi
      rw [hread] at this
      cases this

/-- What has a slot after one more result is the new result, or had the slot before. -/
theorem Progress.Valid.getD_push_cases {p : Progress} (h : p.Valid demands now) {slot : Option Nat}
    {i s : Nat} (hs : (p.results.push slot).getD i none = some s) :
    (i = now ∧ slot = some s) ∨ (i < now ∧ p.results.getD i none = some s) := by
  rw [getD_push, h.size_results] at hs
  split at hs
  · exact Or.inl ⟨‹_›, hs⟩
  · refine Or.inr ⟨?_, hs⟩
    rw [Array.getD_eq_getD_getElem?] at hs
    by_contra hge
    rw [Array.getElem?_eq_none (by rw [h.size_results]; omega)] at hs
    cases hs

/-- Operands come before what reads them, so they are where they were. -/
theorem Progress.Valid.map_getD_push {p : Progress} (h : p.Valid demands now)
    (hwell : Demand.WellFormed demands) {i : Nat} {d : Demand} (hi : i < now + 1)
    (hd : demands[i]? = some d) (slot : Option Nat) :
    d.reads.map ((p.results.push slot).getD · none) = d.reads.map (p.results.getD · none) := by
  refine List.map_congr_left fun r hr => ?_
  have hlt := (hwell i d hd r hr).1
  rw [getD_push, if_neg (by rw [h.size_results]; omega)]

/-- Recording a result that has no slot, or a slot that nothing live uses. -/
theorem Progress.Valid.record {p : Progress} (h : p.Valid demands now)
    (hwell : Demand.WellFormed demands) {d : Demand} (hd : demands[now]? = some d)
    {slot : Option Nat} {free : List Nat} {workSize : Nat} (hslot : slot.isSome = d.defines)
    (hwork : p.workSize ≤ workSize) (hslot_lt : ∀ s, slot = some s → s < workSize)
    (hnodup : free.Nodup) (hfree_lt : ∀ s ∈ free, s < workSize)
    (hfree : ∀ i s, p.results.getD i none = some s → IsLive demands (now + 1) i → s ∉ free)
    (hown : ∀ i s, p.results.getD i none = some s → IsLive demands (now + 1) i → slot ≠ some s)
    (hnew : ∀ s, slot = some s → IsLive demands (now + 1) now → s ∉ free) :
    Progress.Valid demands (now + 1) ⟨p.results.push slot,
      p.arguments.push (d.reads.map (p.results.getD · none)), free, workSize⟩ where
  size_results := by simp [h.size_results]
  size_arguments := by simp [h.size_arguments]
  result i e hi he := by
    rcases Nat.lt_succ_iff_lt_or_eq.mp hi with hlt | rfl
    · rw [Array.getElem?_push, if_neg (by rw [h.size_results]; omega)]
      exact h.result i e hlt he
    · obtain rfl := Option.some.inj (hd.symm.trans he)
      rw [Array.getElem?_push, if_pos h.size_results.symm]
      exact ⟨slot, rfl, hslot⟩
  slot_lt i s hs := by
    rcases h.getD_push_cases hs with ⟨-, hs⟩ | ⟨-, hs⟩
    · exact hslot_lt s hs
    · exact Nat.lt_of_lt_of_le (h.slot_lt i s hs) hwork
  argument i e hi he := by
    rw [h.map_getD_push hwell hi he]
    rcases Nat.lt_succ_iff_lt_or_eq.mp hi with hlt | rfl
    · rw [Array.getElem?_push, if_neg (by rw [h.size_arguments]; omega)]
      exact h.argument i e hlt he
    · obtain rfl := Option.some.inj (hd.symm.trans he)
      rw [Array.getElem?_push, if_pos h.size_arguments.symm]
  free_nodup := hnodup
  free_lt := hfree_lt
  live_notMem_free i s hs hi := by
    rcases h.getD_push_cases hs with ⟨rfl, hs⟩ | ⟨-, hs⟩
    · exact hnew s hs hi
    · exact hfree i s hs hi
  live_injective i j s hsi hsj hi hj := by
    rcases h.getD_push_cases hsi with ⟨rfl, hsi⟩ | ⟨-, hsi⟩ <;>
      rcases h.getD_push_cases hsj with ⟨rfl, hsj⟩ | ⟨-, hsj⟩
    · rfl
    · exact absurd hsi (hown j s hsj hj)
    · exact absurd hsj (hown i s hsi hi)
    · exact h.live_injective i j s hsi hsj (hi.mono (Nat.le_succ now)) (hj.mono (Nat.le_succ now))
  kept i j s hij hsi hsj hi := by
    rcases h.getD_push_cases hsi with ⟨rfl, hsi⟩ | ⟨hi', hsi⟩ <;>
      rcases h.getD_push_cases hsj with ⟨rfl, hsj⟩ | ⟨hj', hsj⟩
    · omega
    · omega
    · exact hown i s hsi hi hsj
    · exact h.kept i j s hij hsi hsj hi

/-- Taking a slot that nothing live uses. It is free again at once if nothing reads the result. -/
theorem Progress.Valid.take {p : Progress} (h : p.Valid demands now)
    (hwell : Demand.WellFormed demands) {d : Demand} (hd : demands[now]? = some d)
    (hdefines : d.defines = true) {slot : Nat} {rest : List Nat} {workSize : Nat}
    (hwork : p.workSize ≤ workSize) (hnodup : (slot :: rest).Nodup)
    (hlt : ∀ s ∈ slot :: rest, s < workSize)
    (hlive : ∀ i s, p.results.getD i none = some s → IsLive demands (now + 1) i → s ∉ slot :: rest) :
    Progress.Valid demands (now + 1) ⟨p.results.push (some slot),
      p.arguments.push (d.reads.map (p.results.getD · none)),
      if isRead (lastReaders demands) now now then rest else slot :: rest, workSize⟩ := by
  have hlength : now < demands.length := (List.getElem?_eq_some_iff.mp hd).1
  -- whether the slot is kept or not, what is free was free before
  have hsub : (if isRead (lastReaders demands) now now then rest else slot :: rest).Sublist
      (slot :: rest) := by
    split
    · exact List.sublist_cons_self slot rest
    · exact List.Sublist.refl _
  refine h.record hwell hd (by rw [hdefines]; rfl) hwork ?_ (hsub.nodup hnodup)
    (fun s hs => hlt s (hsub.subset hs)) (fun i s hs hi hmem => hlive i s hs hi (hsub.subset hmem))
    ?_ ?_
  · rintro s ⟨⟩
    exact hlt slot (List.mem_cons_self ..)
  · rintro i s hs hi ⟨⟩
    exact hlive i slot hs hi (List.mem_cons_self ..)
  · rintro s ⟨⟩ hi
    rw [if_pos ((isRead_lastReaders hlength now).mpr hi)]
    exact (List.nodup_cons.mp hnodup).1

/-- **One instruction keeps the invariant.** -/
theorem Progress.Valid.step {p : Progress} (h : p.Valid demands now)
    (hwell : Demand.WellFormed demands) {d : Demand} (hd : demands[now]? = some d) :
    (Slots.step (lastReaders demands) p d).Valid demands (now + 1) := by
  obtain ⟨hnodup, hlt, hlive⟩ := h.release hwell hd
  have hcases := step_cases (lastReaders demands) p d
  dsimp only at hcases
  rw [h.size_results] at hcases
  rcases hcases with ⟨hdefines, heq⟩ | ⟨hdefines, -, heq⟩ | ⟨slot, rest, hdefines, hfree, heq⟩
  · rw [heq]
    exact h.record hwell hd (by rw [hdefines]; rfl) (Nat.le_refl _) (by simp) hnodup hlt hlive
      (by simp) (by simp)
  · -- no slot is free, so the next number becomes one
    rw [heq]
    refine h.take hwell hd hdefines (Nat.le_succ _) (List.nodup_singleton _) ?_ ?_
    · intro s hs
      rw [List.mem_singleton.mp hs]
      exact Nat.lt_succ_self _
    · intro i s hs _ hmem
      rw [List.mem_singleton.mp hmem] at hs
      exact Nat.lt_irrefl _ (h.slot_lt i _ hs)
  · rw [heq]
    rw [hfree] at hnodup hlt hlive
    exact h.take hwell hd hdefines (Nat.le_refl _) hnodup hlt hlive

/-- What one instruction keeps, all of them keep. -/
theorem Progress.foldl_induction {last : Array (Option Nat)} {motive : Nat → Progress → Prop}
    (start : motive 0 {}) (step : ∀ (now : Nat) (p : Progress) (d : Demand),
      demands[now]? = some d → motive now p → motive (now + 1) (Slots.step last p d)) :
    motive demands.length (demands.foldl (Slots.step last) {}) := by
  have general : ∀ (rest : List Demand) (now : Nat) (p : Progress), demands.drop now = rest →
      motive now p → motive (now + rest.length) (rest.foldl (Slots.step last) p) := by
    intro rest
    induction rest with
    | nil => exact fun now p _ h => h
    | cons d rest ih =>
      intro now p hdrop h
      have hd : demands[now]? = some d := by
        have : (demands.drop now)[0]? = some d := by rw [hdrop]; rfl
        simpa using this
      have hrest : demands.drop (now + 1) = rest := by
        rw [← List.tail_drop, hdrop]
        rfl
      rw [List.foldl_cons, List.length_cons, Nat.add_comm rest.length 1, ← Nat.add_assoc]
      exact ih (now + 1) _ hrest (step now p d hd h)
  have := general demands 0 {} rfl start
  rwa [Nat.zero_add] at this

/-- **The invariant holds when all instructions have slots.** -/
theorem Progress.valid_foldl (hwell : Demand.WellFormed demands) :
    (demands.foldl (Slots.step (lastReaders demands)) {}).Valid demands demands.length :=
  foldl_induction (motive := fun now p => p.Valid demands now) (Progress.valid_start demands)
    fun _ _ _ hd h => h.step hwell hd

end Slots

end Fluxion
