import Fluxion.Proofs.Schedule.Listing
import Fluxion.Proofs.Schedule.Liveness

/-!
# Every step finds what it reads

A program made by `Schedule.make` keeps the values of nodes in slots and reuses them. Here the order
of the steps (`Listing`) and the assignment of slots (`Liveness`) are put together: whatever values
the nodes have, if every step that computes a node leaves the value of the node in its slot, then
every step finds in the slots that it reads the values of the nodes that it reads.

This is stated without reference to what the values are or how they are computed, so the tapes of
scalar and of matrix functions, and runs of them over any algebra, use the same statement.

## Main definitions

* `Step.reads` — the nodes that a step reads
* `Step.Ordered` — no node is computed twice, and none is read before it is computed
* `Schedule.Faithful` — every step finds what it reads

## Main results

* `Schedule.ordered_stepsFor` — steps are ordered
* `Schedule.faithful_make` — programs are faithful
-/

namespace Fluxion

/-! ### Steps in order -/

/-- The nodes that a step reads. -/
def Step.reads (operands : Nat → List Nat) : Step → List Nat
  | compute node => operands node
  | store _ node => [node]

/-- The node that a step computes or stores. -/
def Step.node : Step → Nat
  | compute n | store _ n => n

/-- The result that a step stores, with its node. -/
def Step.stores? : Step → Option (Nat × Nat)
  | compute _ => none
  | store root node => some (root, node)

/-- After the nodes `done`, the steps compute no node twice and read none that is not computed. -/
def Step.Ordered (operands : Nat → List Nat) (size : Nat) : List Nat → List Step → Prop
  | _, [] => True
  | done, .compute n :: rest =>
    n ∉ done ∧ n < size ∧ (∀ a ∈ operands n, a ∈ done) ∧ Ordered operands size (done ++ [n]) rest
  | done, .store _ n :: rest => n ∈ done ∧ Ordered operands size done rest

namespace Step

variable {operands : Nat → List Nat} {size : Nat}

theorem ordered_append_computes {nodes done : List Nat} {rest : List Step}
    (h : Postorder.IsListing operands (done ++ nodes)) (hlt : ∀ n ∈ nodes, n < size)
    (hrest : Ordered operands size (done ++ nodes) rest) :
    Ordered operands size done (nodes.map compute ++ rest) := by
  induction nodes generalizing done with
  | nil => simpa using hrest
  | cons n nodes ih =>
    have hassoc : done ++ n :: nodes = (done ++ [n]) ++ nodes := by simp
    rw [List.map_cons, List.cons_append]
    refine ⟨?_, hlt n (by simp), h.closed done n nodes rfl, ih (hassoc ▸ h)
      (fun m hm => hlt m (by simp [hm])) (hassoc ▸ hrest)⟩
    intro hn
    exact (List.nodup_append.mp h.nodup).2.2 n hn n (by simp) rfl

theorem ordered_of_covers {added : List (Nat × List Nat)} {done : List Nat} {k : Nat}
    (h : Postorder.Covers operands size done added) :
    Ordered operands size done
      ((added.zipIdx k).flatMap fun ((root, nodes), k) => nodes.map compute ++ [.store k root]) := by
  induction added generalizing done k with
  | nil => trivial
  | cons entry rest ih =>
    obtain ⟨root, nodes⟩ := entry
    obtain ⟨hlisting, hroot, hlt, hrest⟩ := h
    rw [List.zipIdx_cons, List.flatMap_cons, List.append_assoc]
    exact ordered_append_computes hlisting hlt ⟨hroot, ih hrest⟩

namespace Ordered

variable {done : List Nat} {steps : List Step}

/-- What a step reads has been computed. -/
theorem exists_of_reads (h : Ordered operands size done steps) {t : Nat} {s : Step}
    (hs : steps[t]? = some s) {a : Nat} (ha : a ∈ s.reads operands) :
    a ∈ done ∨ ∃ p < t, steps[p]? = some (.compute a) := by
  induction steps generalizing done t with
  | nil => simp at hs
  | cons first rest ih =>
    cases t with
    | zero =>
      cases hs
      cases s with
      | compute n => exact Or.inl (h.2.2.1 a ha)
      | store root n => exact Or.inl (List.mem_singleton.mp ha ▸ h.1)
    | succ t =>
      rw [List.getElem?_cons_succ] at hs
      cases first with
      | compute n =>
        rcases ih h.2.2.2 hs with hdone | ⟨p, hp, hpa⟩
        · rcases List.mem_append.mp hdone with hdone | hdone
          · exact Or.inl hdone
          · rw [List.mem_singleton.mp hdone]
            exact Or.inr ⟨0, Nat.succ_pos t, rfl⟩
        · exact Or.inr ⟨p + 1, Nat.succ_lt_succ hp, hpa⟩
      | store root n =>
        rcases ih h.2 hs with hdone | ⟨p, hp, hpa⟩
        · exact Or.inl hdone
        · exact Or.inr ⟨p + 1, Nat.succ_lt_succ hp, hpa⟩

/-- A node that is computed is new and in the graph. -/
theorem of_compute (h : Ordered operands size done steps) {t n : Nat}
    (hs : steps[t]? = some (.compute n)) : n ∉ done ∧ n < size := by
  induction steps generalizing done t with
  | nil => simp at hs
  | cons first rest ih =>
    cases t with
    | zero =>
      cases hs
      exact ⟨h.1, h.2.1⟩
    | succ t =>
      rw [List.getElem?_cons_succ] at hs
      cases first with
      | compute m =>
        obtain ⟨hdone, hlt⟩ := ih h.2.2.2 hs
        exact ⟨fun hn => hdone (List.mem_append_left _ hn), hlt⟩
      | store root m => exact ih h.2 hs

/-- No node is computed twice. -/
theorem compute_injective (h : Ordered operands size done steps) {t u n : Nat}
    (ht : steps[t]? = some (.compute n)) (hu : steps[u]? = some (.compute n)) : t = u := by
  induction steps generalizing done t u with
  | nil => simp at ht
  | cons first rest ih =>
    cases first with
    | compute m =>
      have hrest := h.2.2.2
      cases t with
      | zero =>
        cases ht
        cases u with
        | zero => rfl
        | succ u =>
          rw [List.getElem?_cons_succ] at hu
          exact absurd (by simp) (hrest.of_compute hu).1
      | succ t =>
        rw [List.getElem?_cons_succ] at ht
        cases u with
        | zero =>
          cases hu
          exact absurd (by simp) (hrest.of_compute ht).1
        | succ u => exact congrArg Nat.succ (ih hrest ht hu)
    | store root m =>
      cases t with
      | zero => cases ht
      | succ t =>
        cases u with
        | zero => cases hu
        | succ u => exact congrArg Nat.succ (ih h.2 ht hu)

theorem nodup_computes (h : Ordered operands size done steps) :
    (steps.filterMap computes?).Nodup := by
  induction steps generalizing done with
  | nil => exact List.nodup_nil
  | cons first rest ih =>
    cases first with
    | compute m =>
      refine List.nodup_cons.mpr ⟨fun hm => ?_, ih h.2.2.2⟩
      obtain ⟨s, hs, hsm⟩ := List.mem_filterMap.mp hm
      obtain ⟨t, ht⟩ := List.getElem?_of_mem hs
      cases s with
      | compute n =>
        cases hsm
        exact (h.2.2.2.of_compute ht).1 (by simp)
      | store root n => cases hsm
    | store root m => exact ih h.2

end Ordered

end Step

namespace Schedule

variable {operands : Nat → List Nat} {size : Nat} {roots : List Nat}

/-- Steps are ordered, and they stay below any bound that the roots stay below. -/
theorem ordered_stepsFor_of_le (hless : ∀ n, ∀ a ∈ operands n, a < n) {bound : Nat}
    (hbound : bound ≤ size) (hroots : ∀ r ∈ roots, r < bound) :
    Step.Ordered operands bound [] (stepsFor operands size roots) :=
  Step.ordered_of_covers <| Postorder.covers_visitAll hless (Postorder.stepBound_mono hbound)
    hroots Postorder.isListing_nil (by simp)

theorem ordered_stepsFor (hless : ∀ n, ∀ a ∈ operands n, a < n) (hroots : ∀ r ∈ roots, r < size) :
    Step.Ordered operands size [] (stepsFor operands size roots) :=
  ordered_stepsFor_of_le hless (Nat.le_refl size) hroots

/-- The results are stored in order. -/
theorem stores_stepsFor (operands : Nat → List Nat) (size : Nat) (roots : List Nat) :
    (stepsFor operands size roots).filterMap Step.stores?
      = roots.zipIdx.map fun (root, k) => (k, root) := by
  have hadded : ∀ (added : List (Nat × List Nat)) (k : Nat),
      ((added.zipIdx k).flatMap fun ((root, nodes), k) =>
          nodes.map Step.compute ++ [.store k root]).filterMap Step.stores?
        = ((added.map Prod.fst).zipIdx k).map fun (root, k) => (k, root) := by
    intro added
    induction added with
    | nil => intro k; rfl
    | cons entry rest ih =>
      intro k
      have hcomputes : (entry.2.map Step.compute).filterMap Step.stores? = [] :=
        List.filterMap_eq_nil_iff.mpr fun s hs => by
          obtain ⟨n, -, rfl⟩ := List.mem_map.mp hs
          rfl
      rw [List.zipIdx_cons, List.flatMap_cons, List.filterMap_append, List.filterMap_append,
        hcomputes, ih (k + 1)]
      rfl
  rw [stepsFor, hadded, Postorder.map_fst_visitAll]

/-! ### Positions and demands -/

variable {steps : List Step}

/-- The table of positions leads to the step that computes a node. -/
theorem position_positions (h : Step.Ordered operands size [] steps) {t n : Nat}
    (ht : steps[t]? = some (.compute n)) : position (positions size steps) n = t := by
  obtain ⟨-, hlt⟩ := h.of_compute ht
  have hbuckets := getElem?_buckets size
    (steps.zipIdx.filterMap fun entry => entry.1.computes?.map (·, entry.2)) n
  rw [if_pos hlt] at hbuckets
  set found := (steps.zipIdx.filterMap fun entry => entry.1.computes?.map (·, entry.2)).filterMap
    fun entry => if entry.1 = n then some entry.2 else none with hfound
  have hbucket : (positions size steps)[n]? = some found := hbuckets
  have hmem : ∀ u, u ∈ found ↔ steps[u]? = some (.compute n) := by
    intro u
    simp only [hfound, List.mem_filterMap, Prod.exists, List.mem_zipIdx_iff_getElem?]
    constructor
    · rintro ⟨m, k, ⟨s, v, hs, hk⟩, hif⟩
      cases s with
      | store root m' => cases hk
      | compute m' =>
        cases hk
        split at hif
        · cases hif
          rename_i hmn
          rwa [hmn] at hs
        · cases hif
    · intro hu
      exact ⟨n, u, ⟨_, u, hu, rfl⟩, if_pos rfl⟩
  rw [position, Array.getD_eq_getD_getElem?, hbucket, Option.getD_some]
  cases hlist : found with
  | nil =>
    have := (hmem t).mpr ht
    rw [hlist] at this
    cases this
  | cons u others =>
    have hu : steps[u]? = some (.compute n) := (hmem u).mp (by rw [hlist]; simp)
    exact h.compute_injective hu ht

theorem reads_demand (operands : Nat → List Nat) (table : Array (List Nat)) (s : Step) :
    (demand operands table s).reads = (s.reads operands).map (position table) := by
  cases s <;> rfl

theorem wellFormed_demands (h : Step.Ordered operands size [] steps) :
    Demand.WellFormed (steps.map (demand operands (positions size steps))) := by
  intro t d hd r hr
  rw [List.getElem?_map] at hd
  obtain ⟨s, hs, rfl⟩ := Option.map_eq_some_iff.mp hd
  rw [reads_demand] at hr
  obtain ⟨a, ha, rfl⟩ := List.mem_map.mp hr
  rcases h.exists_of_reads hs ha with hdone | ⟨p, hp, hpa⟩
  · cases hdone
  · rw [position_positions h hpa]
    refine ⟨hp, demand operands (positions size steps) (.compute a), ?_, rfl⟩
    rw [List.getElem?_map, hpa]
    rfl

end Schedule

/-! ### Faithful programs -/

section

variable {W : Type}

/-- The slots after a step that leaves the value of the node it computes. -/
def SlottedStep.after (s : SlottedStep) (value : Nat → W) (slots : Array W) : Array W :=
  match s.step with
  | .compute n => slots.setIfInBounds (s.result.getD 0) (value n)
  | .store .. => slots

/-- If the slots that a step reads hold the values of certain nodes, the slot of each argument holds that
of the node in its place. -/
theorem SlottedStep.getD_argument {s : SlottedStep} {value : Nat → W} {zero : W} {slots : Array W}
    {nodes : List Nat} (hread : s.arguments.map (slots.getD · zero) = nodes.map value) {k n : Nat}
    (hn : nodes[k]? = some n) : slots.getD (s.argument k) zero = value n := by
  have hk := congrArg (·[k]?) hread
  simp only [List.getElem?_map, hn, Option.map_some] at hk
  obtain ⟨slot, hslot, hvalue⟩ := Option.map_eq_some_iff.mp hk
  rw [SlottedStep.argument, List.getD_eq_getElem?_getD, hslot]
  exact hvalue

namespace Schedule

/-- Every step finds in the slots that it reads the values of the nodes that it reads. -/
def Faithful (reads : Step → List Nat) (value : Nat → W) (zero : W) :
    Array W → List SlottedStep → Prop
  | _, [] => True
  | slots, s :: rest =>
    s.arguments.map (slots.getD · zero) = (reads s.step).map value ∧
      Faithful reads value zero (s.after value slots) rest

/-- The slots after the first `t` steps. -/
def slotsAfter (value : Nat → W) (slots : Array W) (steps : List SlottedStep) (t : Nat) : Array W :=
  (steps.take t).foldl (fun slots s => s.after value slots) slots

variable {reads : Step → List Nat} {value : Nat → W} {zero : W} {slots : Array W}
  {steps : List SlottedStep}

theorem faithful_of_forall (h : ∀ (t : Nat) (s : SlottedStep), steps[t]? = some s →
    s.arguments.map ((slotsAfter value slots steps t).getD · zero) = (reads s.step).map value) :
    Faithful reads value zero slots steps := by
  induction steps generalizing slots with
  | nil => trivial
  | cons s rest ih =>
    refine ⟨h 0 s rfl, ih fun t s' hs' => ?_⟩
    exact h (t + 1) s' hs'

theorem slotsAfter_succ {t : Nat} {s : SlottedStep} (h : steps[t]? = some s) :
    slotsAfter value slots steps (t + 1) = s.after value (slotsAfter value slots steps t) := by
  rw [slotsAfter, slotsAfter, List.take_add_one, h, List.foldl_append]
  rfl

@[simp] theorem size_after (s : SlottedStep) (value : Nat → W) (slots : Array W) :
    (s.after value slots).size = slots.size := by
  unfold SlottedStep.after
  split
  · exact Array.size_setIfInBounds
  · rfl

@[simp] theorem size_slotsAfter (value : Nat → W) (slots : Array W) (steps : List SlottedStep)
    (t : Nat) : (slotsAfter value slots steps t).size = slots.size := by
  have : ∀ (l : List SlottedStep) (slots : Array W),
      (l.foldl (fun slots s => s.after value slots) slots).size = slots.size := by
    intro l
    induction l with
    | nil => exact fun _ => rfl
    | cons s rest ih => intro slots; rw [List.foldl_cons, ih, size_after]
  exact this _ _

/-- A slot keeps what a step has left there until another step is given the slot. -/
theorem getD_slotsAfter {p t n slot : Nat} {s : SlottedStep} (hs : steps[p]? = some s)
    (hn : s.step = .compute n) (hslot : s.result = some slot) (hlt : slot < slots.size)
    (hpt : p < t) (ht : t ≤ steps.length)
    (hkept : ∀ q s', p < q → q < t → steps[q]? = some s' → s'.result ≠ some slot)
    (hresult : ∀ (q : Nat) (s' : SlottedStep) (m : Nat), steps[q]? = some s' → s'.step = .compute m →
      s'.result.isSome = true) :
    (slotsAfter value slots steps t).getD slot zero = value n := by
  induction t with
  | zero => omega
  | succ t ih =>
    rcases Nat.lt_or_ge p t with hlater | hlater
    · have hprev := ih hlater (by omega) fun q s' hq hqt => hkept q s' hq (by omega)
      have ht' : t < steps.length := by omega
      have hstep : steps[t]? = some steps[t] := List.getElem?_eq_getElem ht'
      rw [slotsAfter_succ hstep, SlottedStep.after]
      split
      · rename_i m hm
        obtain ⟨other, hother⟩ := Option.isSome_iff_exists.mp (hresult t _ m hstep hm)
        have hne : ¬ other = slot := by
          rintro rfl
          exact hkept t _ hlater (Nat.lt_succ_self t) hstep hother
        rw [hother, Option.getD_some, Array.getD_eq_getD_getElem?,
          Array.getElem?_setIfInBounds_ne hne, ← Array.getD_eq_getD_getElem?]
        exact hprev
      · exact hprev
    · have hpt' : p = t := by omega
      subst hpt'
      rw [slotsAfter_succ hs, SlottedStep.after, hn, hslot, Option.getD_some,
        Array.getD_eq_getD_getElem?, Array.getElem?_setIfInBounds_self_of_lt (by simpa using hlt)]
      rfl

/-! ### Programs from a graph -/

variable {operands : Nat → List Nat} {size : Nat} {roots : List Nat}

/-- The progress of the assignment when all steps have slots. -/
def progress (operands : Nat → List Nat) (size : Nat) (steps : List Step) : Slots.Progress :=
  let demands := steps.map (demand operands (positions size steps))
  demands.foldl (Slots.step (Slots.lastReaders demands)) {}

theorem valid_progress {steps : List Step} (h : Step.Ordered operands size [] steps) :
    (progress operands size steps).Valid (steps.map (demand operands (positions size steps)))
      steps.length := by
  have := Slots.Progress.valid_foldl (wellFormed_demands h)
  rwa [List.length_map] at this

/-- Step number `t` of a program, with its slots. -/
theorem getElem?_steps_make
    (h : Step.Ordered operands size [] (stepsFor operands size roots)) {t : Nat} {s : Step}
    (hs : (stepsFor operands size roots)[t]? = some s) :
    ∃ slot, (progress operands size (stepsFor operands size roots)).results[t]? = some slot ∧
      slot.isSome = s.computes?.isSome ∧
      (make operands size roots).steps[t]? = some ⟨s, slot,
        (s.reads operands).map fun a => ((progress operands size
          (stepsFor operands size roots)).results.getD
            (position (positions size (stepsFor operands size roots)) a) none).getD 0⟩ := by
  set steps := stepsFor operands size roots with hsteps
  have hvalid := valid_progress h
  have ht : t < steps.length := (List.getElem?_eq_some_iff.mp hs).1
  have hd : (steps.map (demand operands (positions size steps)))[t]?
      = some (demand operands (positions size steps) s) := by
    rw [List.getElem?_map, hs]
    rfl
  obtain ⟨slot, hslot, hsome⟩ := hvalid.result t _ ht hd
  have hargument := hvalid.argument t _ ht hd
  have hzip : (steps.zip ((progress operands size steps).results.toList.zip
      (progress operands size steps).arguments.toList))[t]?
      = some (s, slot, (demand operands (positions size steps) s).reads.map
        ((progress operands size steps).results.getD · none)) := by
    refine List.getElem?_zip_eq_some.mpr ⟨hs, List.getElem?_zip_eq_some.mpr ⟨?_, ?_⟩⟩
    · rw [Array.getElem?_toList]
      exact hslot
    · rw [Array.getElem?_toList]
      exact hargument
  refine ⟨slot, hslot, ?_, ?_⟩
  · rw [hsome]
    cases s <;> rfl
  · have hmake : (make operands size roots).steps[t]?
        = ((steps.zip ((progress operands size steps).results.toList.zip
          (progress operands size steps).arguments.toList))[t]?).map
            fun entry => ⟨entry.1, entry.2.1, entry.2.2.map (·.getD 0)⟩ :=
      List.getElem?_map
    rw [hmake, hzip, Option.map_some, reads_demand, List.map_map]
    simp only [List.map_map]
    rfl

theorem steps_make (h : Step.Ordered operands size [] (stepsFor operands size roots)) :
    (make operands size roots).steps.map SlottedStep.step = stepsFor operands size roots := by
  have hvalid := valid_progress h
  have hlength : ((progress operands size (stepsFor operands size roots)).results.toList.zip
      (progress operands size (stepsFor operands size roots)).arguments.toList).length
      = (stepsFor operands size roots).length := by
    rw [List.length_zip, Array.length_toList, Array.length_toList, hvalid.size_results,
      hvalid.size_arguments, Nat.min_self]
  have hmake : (make operands size roots).steps.map SlottedStep.step
      = ((stepsFor operands size roots).zip
        ((progress operands size (stepsFor operands size roots)).results.toList.zip
          (progress operands size (stepsFor operands size roots)).arguments.toList)).map Prod.fst :=
    List.map_map
  rw [hmake, List.map_fst_zip (Nat.le_of_eq hlength.symm)]

theorem computed_eq (h : Step.Ordered operands size [] (stepsFor operands size roots)) :
    (make operands size roots).computed
      = (stepsFor operands size roots).filterMap Step.computes? := by
  rw [← steps_make h, List.filterMap_map]
  rfl

/-- No node is computed twice. -/
theorem nodup_computed (hless : ∀ n, ∀ a ∈ operands n, a < n) (hroots : ∀ r ∈ roots, r < size) :
    (make operands size roots).computed.Nodup := by
  have h := ordered_stepsFor hless hroots
  rw [computed_eq h]
  exact h.nodup_computes

/-- The nodes that a program computes stay below any bound that the roots stay below. -/
theorem lt_of_mem_computed (hless : ∀ n, ∀ a ∈ operands n, a < n) {bound : Nat}
    (hbound : bound ≤ size) (hroots : ∀ r ∈ roots, r < bound) {n : Nat}
    (hn : n ∈ (make operands size roots).computed) : n < bound := by
  rw [computed_eq (ordered_stepsFor hless fun r hr => Nat.lt_of_lt_of_le (hroots r hr) hbound)] at hn
  obtain ⟨s, hs, hsn⟩ := List.mem_filterMap.mp hn
  obtain ⟨t, ht⟩ := List.getElem?_of_mem hs
  cases s with
  | compute m =>
    cases hsn
    exact ((ordered_stepsFor_of_le hless hbound hroots).of_compute ht).2
  | store root m => cases hsn

/-- What holds of the roots, and is passed on to operands, holds of all that is computed. -/
theorem forall_mem_computed (hless : ∀ n, ∀ a ∈ operands n, a < n) {P : Nat → Prop}
    (hoperands : ∀ n, P n → ∀ a ∈ operands n, P a) (hlt : ∀ r ∈ roots, r < size)
    (hroots : ∀ r ∈ roots, P r) : ∀ n ∈ (make operands size roots).computed, P n := by
  intro n hn
  rw [computed_eq (ordered_stepsFor hless hlt), stepsFor] at hn
  obtain ⟨s, hs, hsn⟩ := List.mem_filterMap.mp hn
  obtain ⟨⟨added, k⟩, hadded, hs⟩ := List.mem_flatMap.mp hs
  rcases List.mem_append.mp hs with hs | hs
  · obtain ⟨m, hm, rfl⟩ := List.mem_map.mp hs
    obtain rfl := Option.some.inj hsn
    exact Postorder.visitAll_forall hoperands hroots added
      (List.mem_of_getElem? (List.mk_mem_zipIdx_iff_getElem?.mp hadded)) m hm
  · obtain rfl := List.mem_singleton.mp hs
    contradiction

/-- The slots of a step of a program: the one that its result has been given, and those of the results
that it reads. -/
theorem slots_of_getElem?_make
    (h : Step.Ordered operands size [] (stepsFor operands size roots)) {t : Nat} {s : SlottedStep}
    (hs : (make operands size roots).steps[t]? = some s) :
    (stepsFor operands size roots)[t]? = some s.step ∧
      (progress operands size (stepsFor operands size roots)).results.getD t none = s.result ∧
      s.result.isSome = s.step.computes?.isSome ∧
      s.arguments = (s.step.reads operands).map fun a => ((progress operands size
        (stepsFor operands size roots)).results.getD
          (position (positions size (stepsFor operands size roots)) a) none).getD 0 := by
  have hstep : (stepsFor operands size roots)[t]? = some s.step := by
    rw [← steps_make h, List.getElem?_map, hs]
    rfl
  obtain ⟨slot, hslot, hsome, hmake⟩ := getElem?_steps_make h hstep
  rw [hs] at hmake
  have heq := Option.some.inj hmake
  refine ⟨hstep, ?_, ?_, ?_⟩
  · rw [Array.getD_eq_getD_getElem?, hslot, heq]
    rfl
  · rw [← hsome, heq]
  · exact congrArg SlottedStep.arguments heq

/-- A node that is computed has a slot, within the work array. -/
theorem exists_result_of_compute
    (h : Step.Ordered operands size [] (stepsFor operands size roots)) {p a : Nat}
    (hp : (stepsFor operands size roots)[p]? = some (.compute a)) :
    ∃ r, (progress operands size (stepsFor operands size roots)).results.getD p none = some r ∧
      r < (make operands size roots).workSize := by
  obtain ⟨slot, hslot, hsome, -⟩ := getElem?_steps_make h hp
  obtain ⟨r, rfl⟩ := Option.isSome_iff_exists.mp hsome
  have hresult : (progress operands size (stepsFor operands size roots)).results.getD p none
      = some r := by
    rw [Array.getD_eq_getD_getElem?, hslot]
    rfl
  exact ⟨r, hresult, (valid_progress h).slot_lt p r hresult⟩

/-- **Every step of a program finds what it reads**, whatever the values of the nodes are. -/
theorem faithful_make (hless : ∀ n, ∀ a ∈ operands n, a < n) (hroots : ∀ r ∈ roots, r < size)
    (value : Nat → W) (zero : W) :
    Faithful (Step.reads operands) value zero
      (Array.replicate (make operands size roots).workSize zero) (make operands size roots).steps := by
  have h := ordered_stepsFor hless hroots
  have hvalid := valid_progress h
  have hsteps := steps_make h
  have hlength : (make operands size roots).steps.length = (stepsFor operands size roots).length := by
    rw [← hsteps, List.length_map]
  refine faithful_of_forall fun t s hs => ?_
  obtain ⟨hstep, -, -, harguments⟩ := slots_of_getElem?_make h hs
  have ht : t < (stepsFor operands size roots).length := (List.getElem?_eq_some_iff.mp hstep).1
  rw [harguments, List.map_map]
  refine List.map_congr_left fun a ha => ?_
  rcases h.exists_of_reads hstep ha with hdone | ⟨p, hpt, hp⟩
  · cases hdone
  · -- the step that computes `a`, and what is known of its slot
    obtain ⟨r, hslotp, hlt⟩ := exists_result_of_compute h hp
    obtain ⟨slot, hslot, -, hmake⟩ := getElem?_steps_make h hp
    obtain rfl : slot = some r := by
      rw [Array.getD_eq_getD_getElem?, hslot] at hslotp
      exact hslotp
    have hlive : Slots.IsLive ((stepsFor operands size roots).map
        (demand operands (positions size (stepsFor operands size roots)))) t p := by
      refine ⟨t, _, Nat.le_refl t, by rw [List.getElem?_map, hstep]; rfl, ?_⟩
      rw [reads_demand]
      exact List.mem_map.mpr ⟨a, ha, position_positions h hp⟩
    rw [Function.comp_apply, position_positions h hp, hslotp, Option.getD_some]
    refine getD_slotsAfter hmake rfl rfl ?_ hpt ?_ ?_ ?_
    · rw [Array.size_replicate]
      exact hlt
    · rw [hlength]
      exact Nat.le_of_lt ht
    · intro q s' hpq hqt hs' hresult
      obtain ⟨-, hq, -, -⟩ := slots_of_getElem?_make h hs'
      rw [hresult] at hq
      exact hvalid.kept p q r hpq hslotp hq (hlive.mono hqt)
    · intro q s' m hs' hm
      obtain ⟨-, -, hsome', -⟩ := slots_of_getElem?_make h hs'
      rw [hsome', hm]
      rfl

/-- A step that computes has a slot of its own, within the work array. -/
theorem exists_slot_of_compute (hless : ∀ n, ∀ a ∈ operands n, a < n) (hroots : ∀ r ∈ roots, r < size)
    {s : SlottedStep} (hs : s ∈ (make operands size roots).steps) {n : Nat}
    (hn : s.step = .compute n) :
    ∃ slot, s.result = some slot ∧ slot < (make operands size roots).workSize := by
  have h := ordered_stepsFor hless hroots
  obtain ⟨t, ht⟩ := List.getElem?_of_mem hs
  obtain ⟨hstep, hresult, -, -⟩ := slots_of_getElem?_make h ht
  rw [hn] at hstep
  obtain ⟨r, hr, hlt⟩ := exists_result_of_compute h hstep
  exact ⟨r, hresult.symm.trans hr, hlt⟩

/-- What a step reads is in the work array. -/
theorem argument_lt (hless : ∀ n, ∀ a ∈ operands n, a < n) (hroots : ∀ r ∈ roots, r < size)
    {s : SlottedStep} (hs : s ∈ (make operands size roots).steps) {k : Nat}
    (hk : k < (s.step.reads operands).length) :
    s.argument k < (make operands size roots).workSize := by
  have h := ordered_stepsFor hless hroots
  obtain ⟨t, ht⟩ := List.getElem?_of_mem hs
  obtain ⟨hstep, -, -, harguments⟩ := slots_of_getElem?_make h ht
  rcases h.exists_of_reads hstep (List.getElem_mem hk) with hdone | ⟨p, -, hp⟩
  · cases hdone
  · obtain ⟨r, hr, hlt⟩ := exists_result_of_compute h hp
    rw [SlottedStep.argument, harguments, List.getD_eq_getElem?_getD, List.getElem?_map,
      List.getElem?_eq_getElem hk, Option.map_some, Option.getD_some, position_positions h hp, hr]
    exact hlt

/-- A store of result number `root` stores the root of that number. -/
theorem getElem?_of_store (hless : ∀ n, ∀ a ∈ operands n, a < n) (hroots : ∀ r ∈ roots, r < size)
    {s : SlottedStep} (hs : s ∈ (make operands size roots).steps) {root n : Nat}
    (hn : s.step = .store root n) : roots[root]? = some n := by
  have hmem : s.step ∈ stepsFor operands size roots := by
    rw [← steps_make (ordered_stepsFor hless hroots)]
    exact List.mem_map_of_mem hs
  have hstored : (root, n) ∈ (stepsFor operands size roots).filterMap Step.stores? :=
    List.mem_filterMap.mpr ⟨s.step, hmem, by rw [hn]; rfl⟩
  rw [stores_stepsFor] at hstored
  obtain ⟨entry, hentry, heq⟩ := List.mem_map.mp hstored
  obtain ⟨rfl, rfl⟩ := Prod.mk.inj heq
  exact List.mem_zipIdx_iff_getElem?.mp hentry

/-- What a step of a program reads is computed. -/
theorem mem_computed_of_reads (hless : ∀ n, ∀ a ∈ operands n, a < n) (hroots : ∀ r ∈ roots, r < size)
    {s : Step} (hs : s ∈ stepsFor operands size roots) {a : Nat} (ha : a ∈ s.reads operands) :
    a ∈ (make operands size roots).computed := by
  have h := ordered_stepsFor hless hroots
  obtain ⟨t, ht⟩ := List.getElem?_of_mem hs
  rcases h.exists_of_reads ht ha with hdone | ⟨p, -, hp⟩
  · cases hdone
  · rw [computed_eq h]
    exact List.mem_filterMap.mpr ⟨_, List.mem_of_getElem? hp, rfl⟩

/-- The operands of a node that is computed are computed. -/
theorem mem_computed_of_operand (hless : ∀ n, ∀ a ∈ operands n, a < n)
    (hroots : ∀ r ∈ roots, r < size) {n : Nat} (hn : n ∈ (make operands size roots).computed) {a : Nat}
    (ha : a ∈ operands n) : a ∈ (make operands size roots).computed := by
  rw [computed_eq (ordered_stepsFor hless hroots)] at hn
  obtain ⟨s, hs, hsn⟩ := List.mem_filterMap.mp hn
  cases s with
  | compute m =>
    obtain rfl := Option.some.inj hsn
    exact mem_computed_of_reads hless hroots hs ha
  | store root m => contradiction

/-- The roots are computed. -/
theorem mem_computed_of_root (hless : ∀ n, ∀ a ∈ operands n, a < n)
    (hroots : ∀ r ∈ roots, r < size) {r : Nat} (hr : r ∈ roots) :
    r ∈ (make operands size roots).computed := by
  obtain ⟨k, hk⟩ := List.getElem?_of_mem hr
  have hstored : (k, r) ∈ (stepsFor operands size roots).filterMap Step.stores? := by
    rw [stores_stepsFor]
    exact List.mem_map.mpr ⟨(r, k), List.mk_mem_zipIdx_iff_getElem?.mpr hk, rfl⟩
  obtain ⟨s, hs, hsr⟩ := List.mem_filterMap.mp hstored
  cases s with
  | compute m => contradiction
  | store root m =>
    obtain ⟨rfl, rfl⟩ := Prod.mk.inj (Option.some.inj hsr)
    exact mem_computed_of_reads hless hroots hs (List.mem_singleton.mpr rfl)

end Schedule

end

end Fluxion
