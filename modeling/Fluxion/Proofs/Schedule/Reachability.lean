import Fluxion.Proofs.Schedule.Faithful
import Mathlib.Data.Set.Card
import Mathlib.Logic.Relation

/-!
# Programs hold what their roots reach

`Listing` says that a walk lists no node twice and children first. Here it is shown which nodes those
are and in which order they stand.

A node unfolds into a tree, and the tree has a traversal that takes time exponential in the number of
nodes. A walk looks at every node once, and the nodes that it lists are those of the traversal
without repetitions: each one where the traversal meets it first. While a walk is under way, what it
has listed followed by the traversals of what it has left to do therefore stays the same up to
repetitions. A child that has been seen is skipped together with all that it unfolds into, and that
is no loss, because a listing that has a node has everything that the node reaches.

For the steps of a program it follows that between two stores stands just what the later root reaches
and the earlier ones do not.

## Main definitions

* `Postorder.Reaches` — from a node to one that it is built from
* `Postorder.traversal` — the tree that a node unfolds into, children first
* `Schedule.Lists` — what the steps of a program are, for given roots

## Main results

* `Postorder.mem_traversal` — a traversal meets what its root reaches
* `Postorder.append_visitAll` — **a walk lists a traversal without its repetitions**
* `Schedule.lists_stepsFor` — programs compute what their roots reach, as late as they can
* `Schedule.Lists.length_computes` — as many steps compute as there are nodes that roots reach
-/

namespace Fluxion

/-! ### First occurrences -/

theorem eraseDups_of_nodup {l : List Nat} (h : l.Nodup) : l.eraseDups = l := by
  induction l with
  | nil => rfl
  | cons a rest ih =>
    obtain ⟨ha, hrest⟩ := List.nodup_cons.mp h
    have hfilter : rest.filter (fun b => !b == a) = rest :=
      List.filter_eq_self.mpr fun b hb => by
        have hne : b ≠ a := fun h => ha (h ▸ hb)
        simpa using hne
    rw [List.eraseDups_cons, hfilter, ih hrest]

/-- What has occurred before adds nothing. -/
theorem eraseDups_append_of_subset {front middle : List Nat} (h : middle ⊆ front)
    (back : List Nat) : (front ++ (middle ++ back)).eraseDups = (front ++ back).eraseDups := by
  have hmiddle : middle.removeAll front = [] := List.filter_eq_nil_iff.mpr fun n hn => by
    simpa using h hn
  have hsplit : (middle ++ back).removeAll front = back.removeAll front := by
    show (middle ++ back).filter _ = back.filter _
    rw [List.filter_append]
    exact congrArg (· ++ _) hmiddle
  rw [List.eraseDups_append, List.eraseDups_append, hsplit]

/-- Repetitions that have been removed before need not be removed again. -/
theorem eraseDups_eraseDups_append {front : List Nat} (h : front.eraseDups.Nodup)
    (back : List Nat) : (front.eraseDups ++ back).eraseDups = (front ++ back).eraseDups := by
  have hsame : back.removeAll front.eraseDups = back.removeAll front :=
    List.filter_congr fun n _ => by simp [List.elem_eq_contains]
  rw [List.eraseDups_append, List.eraseDups_append, hsame, eraseDups_of_nodup h]

namespace Postorder

variable {children : Nat → List Nat} {size : Nat}

/-! ### What a node reaches -/

/-- From a node to itself, to its children, to their children and so on. -/
def Reaches (children : Nat → List Nat) : Nat → Nat → Prop :=
  Relation.ReflTransGen fun n c => c ∈ children n

theorem reaches_iff {n m : Nat} :
    Reaches children n m ↔ n = m ∨ ∃ c ∈ children n, Reaches children c m := by
  rw [Reaches, Relation.ReflTransGen.cases_head_iff]

theorem le_of_reaches (hless : ∀ n, ∀ c ∈ children n, c < n) {n m : Nat}
    (h : Reaches children n m) : m ≤ n := by
  induction h with
  | refl => exact Nat.le_refl n
  | tail _ hchild ih => exact Nat.le_trans (Nat.le_of_lt (hless _ _ hchild)) ih

/-- A listing that has a node has everything that the node reaches. -/
theorem IsListing.mem_of_reaches {nodes : List Nat} (h : IsListing children nodes) {n m : Nat}
    (hn : n ∈ nodes) (hm : Reaches children n m) : m ∈ nodes := by
  induction hm with
  | refl => exact hn
  | tail _ hchild ih =>
    obtain ⟨front, back, rfl⟩ := List.append_of_mem ih
    exact List.mem_append_left _ (h.closed front _ back rfl _ hchild)

/-- What the children of a node reach is listed before the node. -/
theorem IsListing.mem_front_of_reaches {front back : List Nat} {n c m : Nat}
    (h : IsListing children (front ++ n :: back)) (hc : c ∈ children n)
    (hm : Reaches children c m) : m ∈ front := by
  have hfront : IsListing children front :=
    ⟨h.nodup.of_append_left, fun first k last heq =>
      h.closed first k (last ++ n :: back) (by rw [heq, List.append_assoc, List.cons_append])⟩
  exact hfront.mem_of_reaches (h.closed front n back rfl c hc) hm

/-- The tree that a node unfolds into, each node after its children. Children with larger numbers,
which there are none of, are left out. -/
def traversal (children : Nat → List Nat) (n : Nat) : List Nat :=
  ((children n).flatMap fun c => if c < n then traversal children c else []) ++ [n]
termination_by n

section

variable (hless : ∀ n, ∀ c ∈ children n, c < n)

include hless

theorem traversal_eq (n : Nat) :
    traversal children n = (children n).flatMap (traversal children) ++ [n] := by
  rw [traversal]
  exact congrArg (· ++ [n]) (List.flatMap_congr fun c hc => if_pos (hless n c hc))

/-- A traversal meets what its root reaches. -/
theorem mem_traversal {n m : Nat} : m ∈ traversal children n ↔ Reaches children n m := by
  induction n using Nat.strongRecOn with
  | _ n ih =>
    rw [traversal_eq hless, reaches_iff, List.mem_append, List.mem_flatMap, List.mem_singleton,
      or_comm, eq_comm]
    exact or_congr Iff.rfl <| exists_congr fun c => and_congr_right fun hc => ih c (hless n c hc)

/-- The traversals of several roots meet what any of them reaches. -/
theorem mem_eraseDups_traversals {α : Type} {as : List α} {root : α → Nat} {n : Nat} :
    n ∈ (as.flatMap fun a => traversal children (root a)).eraseDups
      ↔ ∃ a ∈ as, Reaches children (root a) n := by
  simp only [List.mem_eraseDups, List.mem_flatMap, mem_traversal hless]

end

/-! ### Walks and traversals -/

/-- The traversals that are left to be done by open frames. -/
def remaining (children : Nat → List Nat) (stack : List Frame) : List Nat :=
  stack.flatMap fun f => f.waiting.flatMap (traversal children) ++ [f.node]

@[simp] theorem remaining_nil : remaining children [] = [] := rfl

theorem remaining_close (node : Nat) (stack : List Frame) :
    remaining children (⟨node, []⟩ :: stack) = node :: remaining children stack := rfl

theorem remaining_look (node child : Nat) (rest : List Nat) (stack : List Frame) :
    remaining children (⟨node, child :: rest⟩ :: stack)
      = traversal children child ++ remaining children (⟨node, rest⟩ :: stack) := by
  simp [remaining]

section

variable (hless : ∀ n, ∀ c ∈ children n, c < n)

include hless

theorem remaining_open (child : Nat) (stack : List Frame) :
    remaining children (⟨child, children child⟩ :: stack)
      = traversal children child ++ remaining children stack := by
  rw [traversal_eq hless]
  rfl

/-- What is listed in the end is what is listed now and what is left to be done, without
repetitions. -/
theorem WalkInvariant.append_walk {done : List Nat} {stack : List Frame} {seen : NumberSet}
    {listed : List Nat} {steps : Nat} (h : WalkInvariant children size done stack seen listed)
    (hsteps : frameSteps stack + pending children seen size ≤ steps) :
    done ++ (Postorder.walk children steps stack seen listed).2.reverse
      = (done ++ listed.reverse ++ remaining children stack).eraseDups := by
  have hover : done ++ listed.reverse = (done ++ listed.reverse).eraseDups :=
    (eraseDups_of_nodup h.listing.nodup).symm
  induction steps generalizing stack seen listed with
  | zero =>
    cases stack with
    | nil => simpa [Postorder.walk] using hover
    | cons f rest =>
      obtain ⟨node, waiting⟩ := f
      rw [frameSteps_cons] at hsteps
      omega
  | succ steps ih =>
    cases stack with
    | nil => simpa [Postorder.walk] using hover
    | cons f rest =>
      obtain ⟨node, waiting⟩ := f
      cases waiting with
      | nil =>
        rw [frameSteps_cons, List.length_nil] at hsteps
        rw [Postorder.walk, ih h.close (by omega) (eraseDups_of_nodup h.close.listing.nodup).symm,
          remaining_close]
        simp
      | cons child others =>
        rw [frameSteps_cons, List.length_cons] at hsteps
        rw [Postorder.walk]
        cases hc : seen.contains child with
        | true =>
          have hskip := h.skip hless hc
          have hsubset : traversal children child ⊆ done ++ listed.reverse := fun m hm =>
            h.listing.mem_of_reaches (h.mem_of_seen hless hc) ((mem_traversal hless).mp hm)
          rw [if_pos rfl, ih hskip (by rw [frameSteps_cons]; omega) hover, remaining_look,
            eraseDups_append_of_subset hsubset]
        | false =>
          have hpush := h.push hless hc
          have hlt : child < size := hpush.below child (by simp)
          have hpending := @pending_insert children _ _ _ hc hlt
          rw [if_neg (by simp), ih hpush (by rw [frameSteps_cons, frameSteps_cons]; omega) hover,
            remaining_open hless, remaining_look]

variable {steps : Nat} (hsteps : stepBound children size ≤ steps)

include hsteps

/-- With what a root adds, the traversal of the root has been met. -/
theorem append_visit {done : List Nat} {seen : NumberSet} {root : Nat} (hroot : root < size)
    (hdone : IsListing children done) (hseen : ∀ n, seen.contains n = true ↔ n ∈ done) :
    done ++ (visit children steps seen root).2 = (done ++ traversal children root).eraseDups := by
  unfold visit
  cases hr : seen.contains root with
  | true =>
    have hsubset : traversal children root ⊆ done := fun m hm =>
      hdone.mem_of_reaches ((hseen root).mp hr) ((mem_traversal hless).mp hm)
    have hnothing := eraseDups_append_of_subset hsubset []
    rw [List.append_nil, List.append_nil, eraseDups_of_nodup hdone.nodup] at hnothing
    rw [if_pos rfl, hnothing, List.append_nil]
  | false =>
    have hwalk := (walkInvariant_start hroot hdone hseen hr).append_walk hless
      (frameSteps_start_le hsteps hroot hr)
    rw [if_neg (by simp)]
    rw [remaining_open hless, remaining_nil, List.append_nil] at hwalk
    simpa using hwalk

/-- **A walk lists a traversal without its repetitions**, root by root. -/
theorem append_visitAll {roots : List Nat} (hroots : ∀ r ∈ roots, r < size) {done : List Nat}
    {seen : NumberSet} (hdone : IsListing children done)
    (hseen : ∀ n, seen.contains n = true ↔ n ∈ done) :
    done ++ (visitAll children steps seen roots).flatMap Prod.snd
      = (done ++ roots.flatMap (traversal children)).eraseDups := by
  induction roots generalizing done seen with
  | nil => simpa [visitAll] using (eraseDups_of_nodup hdone.nodup).symm
  | cons root rest ih =>
    obtain ⟨hroot, hrest⟩ := List.forall_mem_cons.mp hroots
    obtain ⟨hlisting, -, -, hseen'⟩ := visit_spec hless hsteps hroot hdone hseen
    have hfirst := append_visit hless hsteps hroot hdone hseen
    have hlater := ih hrest hlisting hseen'
    have hnodup : (done ++ traversal children root).eraseDups.Nodup := hfirst ▸ hlisting.nodup
    calc done ++ (visitAll children steps seen (root :: rest)).flatMap Prod.snd
        = done ++ (visit children steps seen root).2
            ++ (visitAll children steps (visit children steps seen root).1 rest).flatMap Prod.snd := by
          rw [visitAll, List.flatMap_cons, List.append_assoc]
      _ = ((done ++ traversal children root).eraseDups
            ++ rest.flatMap (traversal children)).eraseDups := by rw [hlater, hfirst]
      _ = (done ++ (root :: rest).flatMap (traversal children)).eraseDups := by
          rw [eraseDups_eraseDups_append hnodup, List.append_assoc, List.flatMap_cons]

/-- Several roots add, when nothing has been seen, what they reach, in the order in which it is first
met in the trees that they unfold into. -/
theorem flatMap_visitAll_empty {roots : List Nat} (hroots : ∀ r ∈ roots, r < size) :
    (visitAll children steps .empty roots).flatMap Prod.snd
      = (roots.flatMap (traversal children)).eraseDups := by
  have hempty : ∀ n, NumberSet.empty.contains n = true ↔ n ∈ ([] : List Nat) := by simp
  exact append_visitAll hless hsteps hroots isListing_nil hempty

/-- What several roots add is what they reach. -/
theorem mem_flatMap_visitAll {roots : List Nat} (hroots : ∀ r ∈ roots, r < size) {n : Nat} :
    n ∈ (visitAll children steps .empty roots).flatMap Prod.snd
      ↔ ∃ r ∈ roots, Reaches children r n := by
  rw [flatMap_visitAll_empty hless hsteps hroots]
  exact mem_eraseDups_traversals hless

end

/-- The first roots do not depend on those that come later. -/
theorem take_visitAll (children : Nat → List Nat) (steps : Nat) (seen : NumberSet)
    (roots : List Nat) (k : Nat) :
    (visitAll children steps seen roots).take k = visitAll children steps seen (roots.take k) := by
  induction roots generalizing seen k with
  | nil => simp [visitAll]
  | cons root rest ih =>
    cases k with
    | zero => rfl
    | succ k => rw [visitAll, List.take_succ_cons, ih, List.take_succ_cons, visitAll]

end Postorder

namespace Step

theorem mem_filterMap_computes? {steps : List Step} {n : Nat} :
    n ∈ steps.filterMap computes? ↔ compute n ∈ steps := by
  rw [List.mem_filterMap]
  refine ⟨?_, fun h => ⟨_, h, rfl⟩⟩
  rintro ⟨s, hs, hn⟩
  cases s with
  | compute m => exact Option.some.inj hn ▸ hs
  | store root m => cases hn

/-- A step computes or stores. -/
theorem length_computes_add_length_stores (steps : List Step) :
    (steps.filterMap computes?).length + (steps.filterMap stores?).length = steps.length := by
  induction steps with
  | nil => rfl
  | cons s rest ih =>
    cases s with
    | compute n =>
      rw [List.length_cons, ← ih, Nat.add_right_comm]
      rfl
    | store root n =>
      rw [List.length_cons, ← ih]
      rfl

end Step

namespace Schedule

variable {operands : Nat → List Nat} {size : Nat} {roots : List Nat}

/-! ### The steps of a program -/

/-- The steps of a program in blocks: what a root adds, and its store as result number `k`. -/
def blocks : Nat → List (Nat × List Nat) → List Step
  | _, [] => []
  | k, (root, nodes) :: rest => nodes.map Step.compute ++ .store k root :: blocks (k + 1) rest

theorem stepsFor_eq_blocks (operands : Nat → List Nat) (size : Nat) (roots : List Nat) :
    stepsFor operands size roots
      = blocks 0 (Postorder.visitAll operands (Postorder.stepBound operands size) .empty roots) := by
  have general : ∀ (added : List (Nat × List Nat)) (k : Nat),
      (added.zipIdx k).flatMap
          (fun entry => entry.1.2.map Step.compute ++ [.store entry.2 entry.1.1])
        = blocks k added := by
    intro added
    induction added with
    | nil => intro k; rfl
    | cons entry rest ih =>
      intro k
      rw [List.zipIdx_cons, List.flatMap_cons, ih, List.append_assoc]
      rfl
  exact general _ 0

theorem filterMap_computes?_map (nodes : List Nat) :
    (nodes.map Step.compute).filterMap Step.computes? = nodes := by
  rw [List.filterMap_map]
  exact List.filterMap_some

theorem filterMap_computes?_blocks (k : Nat) (added : List (Nat × List Nat)) :
    (blocks k added).filterMap Step.computes? = added.flatMap Prod.snd := by
  induction added generalizing k with
  | nil => rfl
  | cons entry rest ih =>
    rw [blocks, List.filterMap_append, filterMap_computes?_map, List.flatMap_cons]
    exact congrArg (entry.2 ++ ·) (ih (k + 1))

/-- What stands before the store of a result: the nodes that the roots up to its own add. -/
theorem computes_take_of_store {added : List (Nat × List Nat)} {start t k n : Nat}
    (h : (blocks start added)[t]? = some (.store k n)) :
    start ≤ k ∧ ((blocks start added).take t).filterMap Step.computes?
      = (added.take (k + 1 - start)).flatMap Prod.snd := by
  induction added generalizing start t with
  | nil => simp [blocks] at h
  | cons entry rest ih =>
    obtain ⟨root, nodes⟩ := entry
    rw [blocks] at h ⊢
    rcases Nat.lt_or_ge t nodes.length with ht | ht
    · -- only nodes stand before the first store
      rw [List.getElem?_append_left (by simpa using ht), List.getElem?_map] at h
      obtain ⟨m, -, hm⟩ := Option.map_eq_some_iff.mp h
      cases hm
    · obtain ⟨later, rfl⟩ := Nat.exists_eq_add_of_le ht
      rw [List.getElem?_append_right (by simp), List.length_map, Nat.add_sub_cancel_left] at h
      rw [List.take_append, List.length_map, Nat.add_sub_cancel_left,
        List.take_of_length_le (by simp), List.filterMap_append, filterMap_computes?_map]
      cases later with
      | zero =>
        cases h
        simp
      | succ later =>
        rw [List.getElem?_cons_succ] at h
        obtain ⟨hle, hcomputes⟩ := ih h
        have htake : k + 1 - start = k + 1 - (start + 1) + 1 := by omega
        refine ⟨by omega, ?_⟩
        rw [htake, List.take_succ_cons, List.take_succ_cons, List.flatMap_cons, ← hcomputes]
        rfl

/-- What the steps of a program are, for given roots. -/
structure Lists (operands : Nat → List Nat) (roots : List Nat) (steps : List Step) : Prop where
  /-- Nodes are computed in the order in which the traversals of the roots first meet them. -/
  order : steps.filterMap Step.computes? = (roots.flatMap (Postorder.traversal operands)).eraseDups
  /-- No node is computed twice. -/
  nodup : (steps.filterMap Step.computes?).Nodup
  /-- Just what the roots reach is computed. -/
  compute_mem_iff : ∀ n, Step.compute n ∈ steps ↔ ∃ r ∈ roots, Postorder.Reaches operands r n
  /-- Operands are computed first. -/
  operand_before : ∀ (t n : Nat), steps[t]? = some (Step.compute n) →
    ∀ a ∈ operands n, ∃ p < t, steps[p]? = some (Step.compute a)
  /-- There is one store for each root, in order. -/
  stores : steps.filterMap Step.stores? = roots.zipIdx.map fun (root, k) => (k, root)
  /-- A root is computed before it is stored. -/
  root_before : ∀ (t k n : Nat), steps[t]? = some (Step.store k n) →
    ∃ p < t, steps[p]? = some (Step.compute n)
  /-- What only later roots reach is computed after the store. -/
  before_store_iff : ∀ (t k n : Nat), steps[t]? = some (Step.store k n) →
    ∀ (u m : Nat), steps[u]? = some (Step.compute m) →
      (u < t ↔ ∃ r ∈ roots.take (k + 1), Postorder.Reaches operands r m)

/-- **Programs compute what their roots reach, each node once, and as late as they can.** -/
theorem lists_stepsFor (hless : ∀ n, ∀ a ∈ operands n, a < n) (hroots : ∀ r ∈ roots, r < size) :
    Lists operands roots (stepsFor operands size roots) := by
  have hordered := ordered_stepsFor hless hroots
  have hcomputes : (stepsFor operands size roots).filterMap Step.computes?
      = (Postorder.visitAll operands (Postorder.stepBound operands size) .empty roots).flatMap
        Prod.snd := by
    rw [stepsFor_eq_blocks, filterMap_computes?_blocks]
  have hread : ∀ (t : Nat) (s : Step), (stepsFor operands size roots)[t]? = some s →
      ∀ a ∈ s.reads operands,
        ∃ p < t, (stepsFor operands size roots)[p]? = some (Step.compute a) := fun t s hs a ha =>
    (hordered.exists_of_reads hs ha).resolve_left List.not_mem_nil
  refine
    { order := ?_
      nodup := hordered.nodup_computes
      compute_mem_iff := fun n => ?_
      operand_before := fun t n hn a ha => hread t _ hn a ha
      stores := stores_stepsFor operands size roots
      root_before := fun t k n hn => hread t _ hn n (List.mem_singleton.mpr rfl)
      before_store_iff := fun t k n hstore u m hm => ?_ }
  · rw [hcomputes]
    exact Postorder.flatMap_visitAll_empty hless (Nat.le_refl _) hroots
  · rw [← Step.mem_filterMap_computes?, hcomputes,
      Postorder.mem_flatMap_visitAll hless (Nat.le_refl _) hroots]
  · have hblocks := hstore
    rw [stepsFor_eq_blocks] at hblocks
    obtain ⟨-, htake⟩ := computes_take_of_store hblocks
    rw [← stepsFor_eq_blocks, Nat.sub_zero, Postorder.take_visitAll] at htake
    rw [← Postorder.mem_flatMap_visitAll hless (Nat.le_refl (Postorder.stepBound operands size))
      (fun r hr => hroots r (List.mem_of_mem_take hr)), ← htake, Step.mem_filterMap_computes?]
    constructor
    · intro hu
      exact List.mem_of_getElem? ((List.getElem?_take_of_lt hu).trans hm)
    · intro hmem
      obtain ⟨p, hp⟩ := List.getElem?_of_mem hmem
      rw [List.getElem?_take] at hp
      split at hp
      · rename_i hpt
        exact hordered.compute_injective hp hm ▸ hpt
      · cases hp

namespace Lists

variable {steps : List Step}

/-- As many steps compute as there are nodes that the roots reach. -/
theorem length_computes (h : Lists operands roots steps) :
    (steps.filterMap Step.computes?).length
      = {n | ∃ r ∈ roots, Postorder.Reaches operands r n}.ncard := by
  have hset : {n | ∃ r ∈ roots, Postorder.Reaches operands r n}
      = ((steps.filterMap Step.computes?).toFinset : Set Nat) := by
    ext n
    rw [Finset.mem_coe, List.mem_toFinset, Step.mem_filterMap_computes?, h.compute_mem_iff]
    rfl
  rw [hset, Set.ncard_coe_finset, List.toFinset_card_of_nodup h.nodup]

theorem length_steps (h : Lists operands roots steps) :
    steps.length = {n | ∃ r ∈ roots, Postorder.Reaches operands r n}.ncard + roots.length := by
  rw [← Step.length_computes_add_length_stores, h.length_computes, h.stores, List.length_map,
    List.length_zipIdx]

end Lists

end Schedule

end Fluxion
