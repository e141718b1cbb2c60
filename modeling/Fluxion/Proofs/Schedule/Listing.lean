import Fluxion.Schedule.Steps
import Mathlib.Algebra.Ring.Nat
import Mathlib.Data.List.Nodup
import Mathlib.Tactic.Tauto

/-!
# The walk lists operands first

`Postorder.walk` keeps an explicit stack and stops after a number of steps. Here it is shown that
the number of steps never matters and what the lists look like in the end: no node is listed twice,
and every node comes after all its children.

The one assumption is that children have smaller numbers than their parents, which holds in every
graph of this library. It makes the open nodes increase from the top of the stack downwards, so a
child that has been seen before cannot be open: it is listed.

## Main definitions

* `Postorder.IsListing` — no node twice, children first
* `Postorder.WalkInvariant` — what holds between two steps of a walk
* `Postorder.pending` — the steps that unseen nodes will take
* `Postorder.Covers` — what several roots add, one after the other

## Main results

* `Postorder.WalkInvariant.walk` — a walk with enough steps closes every node that is open
* `Postorder.covers_visitAll` — every root is listed, and what the roots add is a listing
* `Postorder.visitAll_forall` — only what the roots are built from is listed
-/

namespace Fluxion

namespace Postorder

variable {children : Nat → List Nat} {size : Nat}

/-! ### Listings -/

/-- No node is listed twice, and every node is listed after its children. -/
structure IsListing (children : Nat → List Nat) (nodes : List Nat) : Prop where
  nodup : nodes.Nodup
  closed : ∀ front node back, nodes = front ++ node :: back → ∀ c ∈ children node, c ∈ front

theorem isListing_nil : IsListing children [] :=
  ⟨List.nodup_nil, by simp⟩

theorem IsListing.concat {nodes : List Nat} (h : IsListing children nodes) {n : Nat}
    (hn : n ∉ nodes) (hc : ∀ c ∈ children n, c ∈ nodes) : IsListing children (nodes ++ [n]) := by
  refine ⟨?_, ?_⟩
  · rw [List.nodup_append]
    refine ⟨h.nodup, List.nodup_singleton n, ?_⟩
    rintro a ha b hb rfl
    exact hn (List.mem_singleton.mp hb ▸ ha)
  · intro front node back heq c hcn
    rcases List.eq_nil_or_concat back with rfl | ⟨back', last, rfl⟩
    · obtain ⟨rfl, hlast⟩ := List.append_inj' heq rfl
      cases hlast
      exact hc c hcn
    · have heq' : nodes ++ [n] = (front ++ node :: back') ++ [last] := by simpa using heq
      obtain ⟨hnodes, -⟩ := List.append_inj' heq' rfl
      exact h.closed front node back' hnodes c hcn

/-! ### One walk -/

/-- The children that open frames have looked at are listed, except for the one that is open above
its parent. -/
def FramesLooked (children : Nat → List Nat) (listed : List Nat) : Option Nat → List Frame → Prop
  | _, [] => True
  | above, f :: rest =>
    (∃ looked, children f.node = looked ++ f.waiting ∧ ∀ c ∈ looked, c ∈ listed ∨ above = some c) ∧
      FramesLooked children listed (some f.node) rest

/-- A listed node is as good as one that is open above. -/
theorem FramesLooked.imp {listed listed' : List Nat} {above above' : Option Nat}
    (hlisted : ∀ c ∈ listed, c ∈ listed') (habove : ∀ c, above = some c → c ∈ listed' ∨ above' = some c)
    {stack : List Frame} (h : FramesLooked children listed above stack) :
    FramesLooked children listed' above' stack := by
  induction stack generalizing above above' with
  | nil => trivial
  | cons f rest ih =>
    obtain ⟨⟨looked, heq, hlooked⟩, hrest⟩ := h
    refine ⟨⟨looked, heq, fun c hc => ?_⟩, ih (fun c hc => Or.inr hc) hrest⟩
    rcases hlooked c hc with hc | hc
    · exact Or.inl (hlisted c hc)
    · exact habove c hc

/-- What holds between two steps of a walk, where earlier walks have listed `done`. The nodes listed
by this walk stand with the last one first. -/
structure WalkInvariant (children : Nat → List Nat) (size : Nat) (done : List Nat)
    (stack : List Frame) (seen : NumberSet) (listed : List Nat) : Prop where
  listing : IsListing children (done ++ listed.reverse)
  seen_iff : ∀ n, seen.contains n = true ↔ n ∈ done ++ listed.reverse ∨ n ∈ stack.map Frame.node
  increasing : (stack.map Frame.node).Pairwise (· < ·)
  disjoint : ∀ n ∈ stack.map Frame.node, n ∉ done ++ listed.reverse
  looked : FramesLooked children (done ++ listed.reverse) none stack
  below : ∀ n ∈ stack.map Frame.node ++ listed, n < size

/-- The steps that it takes to open and close the nodes that have not been seen. -/
def pending (children : Nat → List Nat) (seen : NumberSet) : Nat → Nat
  | 0 => 0
  | n + 1 => pending children seen n + if seen.contains n then 0 else (children n).length + 1

theorem pending_empty (children : Nat → List Nat) (size : Nat) :
    pending children .empty size = stepBound children size := by
  have general : ∀ (nodes : List Nat) (rest : Nat),
      nodes.foldr (fun n steps => (children n).length + 1 + steps) rest
        = nodes.foldr (fun n steps => (children n).length + 1 + steps) 0 + rest := by
    intro nodes rest
    induction nodes with
    | nil => simp
    | cons n nodes ih => rw [List.foldr_cons, List.foldr_cons, ih]; omega
  induction size with
  | zero => rfl
  | succ n ih =>
    have hlast : stepBound children (n + 1) = stepBound children n + ((children n).length + 1) := by
      rw [stepBound, List.range_succ, List.foldr_append, general]
      rfl
    rw [pending, ih, hlast, NumberSet.contains_empty]
    rfl

theorem stepBound_mono {bound size : Nat} (h : bound ≤ size) :
    stepBound children bound ≤ stepBound children size := by
  rw [← pending_empty, ← pending_empty]
  induction h with
  | refl => exact Nat.le_refl _
  | step _ ih => exact Nat.le_trans ih (Nat.le_add_right _ _)

theorem pending_insert_of_le {seen : NumberSet} {c n : Nat} (h : n ≤ c) :
    pending children (seen.insert c) n = pending children seen n := by
  induction n with
  | zero => rfl
  | succ n ih =>
    have hne : ¬ n = c := by omega
    rw [pending, pending, ih (by omega), NumberSet.contains_insert]
    simp [hne]

/-- Looking into a node for the first time pays for its steps. -/
theorem pending_insert {seen : NumberSet} {c n : Nat} (hc : seen.contains c = false) (h : c < n) :
    pending children (seen.insert c) n + ((children c).length + 1) = pending children seen n := by
  induction n with
  | zero => omega
  | succ n ih =>
    rw [pending, pending, NumberSet.contains_insert]
    rcases Nat.lt_or_ge c n with hcn | hcn
    · have hne : ¬ n = c := by omega
      have := ih hcn
      simp only [hne, decide_false, Bool.or_false]
      omega
    · have hne : n = c := by omega
      subst hne
      rw [pending_insert_of_le (Nat.le_refl _)]
      simp [hc]

theorem pending_mono {seen seen' : NumberSet}
    (h : ∀ n, seen.contains n = true → seen'.contains n = true) (n : Nat) :
    pending children seen' n ≤ pending children seen n := by
  induction n with
  | zero => exact Nat.le_refl _
  | succ n ih =>
    rw [pending, pending]
    cases hs : seen.contains n with
    | true => simpa [h n hs] using ih
    | false => simp only [Bool.false_eq_true, if_false]; split <;> omega

/-- The steps that open frames will take. -/
def frameSteps (stack : List Frame) : Nat := (stack.map fun f => f.waiting.length + 1).sum

@[simp] theorem frameSteps_nil : frameSteps [] = 0 := rfl

@[simp] theorem frameSteps_cons (node : Nat) (waiting : List Nat) (stack : List Frame) :
    frameSteps (⟨node, waiting⟩ :: stack) = waiting.length + 1 + frameSteps stack := rfl

namespace WalkInvariant

variable {done : List Nat} {stack : List Frame} {seen : NumberSet} {listed : List Nat}

/-- Closing a node lists it. -/
theorem close {node : Nat}
    (h : WalkInvariant children size done (⟨node, []⟩ :: stack) seen listed) :
    WalkInvariant children size done stack seen (node :: listed) := by
  obtain ⟨⟨looked, heq, hlooked⟩, hrest⟩ := h.looked
  have hchildren : ∀ c ∈ children node, c ∈ done ++ listed.reverse := by
    intro c hc
    rw [heq, List.append_nil] at hc
    rcases hlooked c hc with hc | hc
    · exact hc
    · cases hc
  have hall : done ++ (node :: listed).reverse = (done ++ listed.reverse) ++ [node] := by simp
  have hnode : node ∉ done ++ listed.reverse := h.disjoint node (by simp)
  obtain ⟨hfirst, hlater⟩ := List.pairwise_cons.mp h.increasing
  refine ⟨?_, ?_, hlater, ?_, ?_, ?_⟩
  · rw [hall]
    exact h.listing.concat hnode hchildren
  · intro n
    rw [h.seen_iff, hall, List.map_cons, List.mem_cons, List.mem_append (t := [node]),
      List.mem_singleton, or_assoc]
  · intro n hn
    rw [hall, List.mem_append, List.mem_singleton, not_or]
    exact ⟨h.disjoint n (by simpa using Or.inr hn), Nat.ne_of_gt (hfirst n hn)⟩
  · rw [hall]
    refine hrest.imp (fun c hc => List.mem_append_left _ hc) ?_
    rintro c ⟨⟩
    exact Or.inl (by simp)
  · intro n hn
    refine h.below n ?_
    simp only [List.map_cons, List.mem_append, List.mem_cons] at hn ⊢
    tauto

variable (hless : ∀ n, ∀ c ∈ children n, c < n)

include hless in
/-- A child that has been seen is listed, because every open node has a larger number. -/
theorem mem_of_seen {node child : Nat} {rest : List Nat}
    (h : WalkInvariant children size done (⟨node, child :: rest⟩ :: stack) seen listed)
    (hc : seen.contains child = true) : child ∈ done ++ listed.reverse := by
  obtain ⟨⟨looked, heq, -⟩, -⟩ := h.looked
  have hlt : child < node := hless node child (by rw [heq]; simp)
  rcases (h.seen_iff child).mp hc with hc | hc
  · exact hc
  · rcases List.mem_cons.mp hc with hc | hc
    · exact absurd hc (Nat.ne_of_lt hlt)
    · have := (List.pairwise_cons.mp h.increasing).1 child hc
      exact absurd this (Nat.lt_asymm hlt)

include hless in
/-- A child that has been seen is done with. -/
theorem skip {node child : Nat} {rest : List Nat}
    (h : WalkInvariant children size done (⟨node, child :: rest⟩ :: stack) seen listed)
    (hc : seen.contains child = true) :
    WalkInvariant children size done (⟨node, rest⟩ :: stack) seen listed := by
  obtain ⟨⟨looked, heq, hlooked⟩, hrest⟩ := h.looked
  have hlisted := h.mem_of_seen hless hc
  refine ⟨h.listing, h.seen_iff, h.increasing, h.disjoint, ⟨⟨looked ++ [child], ?_, ?_⟩, hrest⟩,
    h.below⟩
  · rw [heq, List.append_assoc]
    rfl
  · intro c hcl
    rcases List.mem_append.mp hcl with hcl | hcl
    · exact hlooked c hcl
    · exact Or.inl (List.mem_singleton.mp hcl ▸ hlisted)

include hless in
/-- A child that has not been seen is opened. -/
theorem push {node child : Nat} {rest : List Nat}
    (h : WalkInvariant children size done (⟨node, child :: rest⟩ :: stack) seen listed)
    (hc : seen.contains child = false) :
    WalkInvariant children size done (⟨child, children child⟩ :: ⟨node, rest⟩ :: stack)
      (seen.insert child) listed := by
  obtain ⟨⟨looked, heq, hlooked⟩, hrest⟩ := h.looked
  have hlt : child < node := hless node child (by rw [heq]; simp)
  have hunseen : ¬ (child ∈ done ++ listed.reverse
      ∨ child ∈ (Frame.mk node (child :: rest) :: stack).map Frame.node) := by
    rw [← h.seen_iff, hc]
    simp
  rw [not_or] at hunseen
  refine ⟨h.listing, ?_, ?_, ?_, ⟨⟨[], rfl, by simp⟩, ⟨looked ++ [child], ?_, ?_⟩, hrest⟩, ?_⟩
  · intro n
    rw [NumberSet.contains_insert, Bool.or_eq_true, h.seen_iff, decide_eq_true_eq]
    simp only [List.map_cons, List.mem_cons]
    tauto
  · rw [List.map_cons, List.pairwise_cons]
    refine ⟨?_, h.increasing⟩
    intro n hn
    rcases List.mem_cons.mp hn with rfl | hn
    · exact hlt
    · exact Nat.lt_trans hlt ((List.pairwise_cons.mp h.increasing).1 n hn)
  · intro n hn
    rcases List.mem_cons.mp hn with rfl | hn
    · exact hunseen.1
    · exact h.disjoint n hn
  · rw [heq, List.append_assoc]
    rfl
  · intro c hcl
    rcases List.mem_append.mp hcl with hcl | hcl
    · rcases hlooked c hcl with hcl | hcl
      · exact Or.inl hcl
      · cases hcl
    · exact Or.inr (congrArg some (List.mem_singleton.mp hcl).symm)
  · intro n hn
    have hnode : node < size := h.below node (by simp)
    simp only [List.map_cons, List.cons_append, List.mem_cons] at hn
    rcases hn with rfl | hn
    · exact Nat.lt_trans hlt hnode
    · exact h.below n (by simpa using hn)

include hless in
/-- **A walk with enough steps closes every open node.** -/
theorem walk {steps : Nat} (h : WalkInvariant children size done stack seen listed)
    (hsteps : frameSteps stack + pending children seen size ≤ steps) :
    WalkInvariant children size done [] (Postorder.walk children steps stack seen listed).1
        (Postorder.walk children steps stack seen listed).2 ∧
      ∀ n, seen.contains n = true →
        (Postorder.walk children steps stack seen listed).1.contains n = true := by
  induction steps generalizing stack seen listed with
  | zero =>
    cases stack with
    | nil => exact ⟨h, fun _ hn => hn⟩
    | cons f rest =>
      obtain ⟨node, waiting⟩ := f
      rw [frameSteps_cons] at hsteps
      omega
  | succ steps ih =>
    match stack with
    | [] => exact ⟨h, fun _ hn => hn⟩
    | ⟨node, []⟩ :: rest =>
      rw [Postorder.walk]
      refine ih h.close ?_
      rw [frameSteps_cons, List.length_nil] at hsteps
      omega
    | ⟨node, child :: others⟩ :: rest =>
      rw [frameSteps_cons, List.length_cons] at hsteps
      rw [Postorder.walk]
      cases hc : seen.contains child with
      | true =>
        refine ih (h.skip hless hc) ?_
        rw [frameSteps_cons]
        omega
      | false =>
        have hlt : child < size := by
          have hnew := h.push hless hc
          exact hnew.below child (by simp)
        have hpending := @pending_insert children _ _ _ hc hlt
        obtain ⟨hend, hseen⟩ := ih (h.push hless hc) (by
          rw [frameSteps_cons, frameSteps_cons]
          omega)
        refine ⟨hend, fun n hn => hseen n ?_⟩
        rw [NumberSet.contains_insert, hn]
        rfl

end WalkInvariant

/-! ### Several roots -/

/-- What several roots add in turn, after `done`: with each root the nodes form a listing, and the
root is among them. -/
def Covers (children : Nat → List Nat) (size : Nat) : List Nat → List (Nat × List Nat) → Prop
  | _, [] => True
  | done, (root, added) :: rest =>
    IsListing children (done ++ added) ∧ root ∈ done ++ added ∧ (∀ n ∈ added, n < size) ∧
      Covers children size (done ++ added) rest

/-- A walk starts with its root open and nothing listed. -/
theorem walkInvariant_start {done : List Nat} {seen : NumberSet} {root : Nat} (hroot : root < size)
    (hdone : IsListing children done) (hseen : ∀ n, seen.contains n = true ↔ n ∈ done)
    (hr : seen.contains root = false) :
    WalkInvariant children size done [⟨root, children root⟩] (seen.insert root) [] := by
  have hnew : root ∉ done := by rw [← hseen, hr]; simp
  refine ⟨by simpa using hdone, ?_, by simp, by simpa using hnew, ⟨⟨[], rfl, by simp⟩, trivial⟩,
    by simpa using hroot⟩
  intro n
  rw [NumberSet.contains_insert, Bool.or_eq_true, hseen, decide_eq_true_eq]
  simp

/-- The bound is enough for a walk from any root. -/
theorem frameSteps_start_le {steps : Nat} (hsteps : stepBound children size ≤ steps)
    {seen : NumberSet} {root : Nat} (hroot : root < size) (hr : seen.contains root = false) :
    frameSteps [⟨root, children root⟩] + pending children (seen.insert root) size ≤ steps := by
  have hpay := @pending_insert children _ _ _ hr hroot
  have hle := @pending_mono children .empty seen (by simp) size
  rw [pending_empty] at hle
  rw [frameSteps_cons, frameSteps_nil]
  omega

section

variable (hless : ∀ n, ∀ c ∈ children n, c < n) {steps : Nat}
  (hsteps : stepBound children size ≤ steps)

include hless hsteps in
/-- What one root adds. -/
theorem visit_spec {done : List Nat} {seen : NumberSet} {root : Nat} (hroot : root < size)
    (hdone : IsListing children done) (hseen : ∀ n, seen.contains n = true ↔ n ∈ done) :
    IsListing children (done ++ (visit children steps seen root).2) ∧
      root ∈ done ++ (visit children steps seen root).2 ∧
      (∀ n ∈ (visit children steps seen root).2, n < size) ∧
      ∀ n, (visit children steps seen root).1.contains n = true ↔
        n ∈ done ++ (visit children steps seen root).2 := by
  unfold visit
  cases hr : seen.contains root with
  | true =>
    rw [if_pos rfl, List.append_nil]
    exact ⟨hdone, (hseen root).mp hr, by simp, hseen⟩
  | false =>
    obtain ⟨hend, hmono⟩ := (walkInvariant_start hroot hdone hseen hr).walk hless
      (frameSteps_start_le hsteps hroot hr)
    rw [if_neg (by simp)]
    refine ⟨hend.listing, ?_, ?_, ?_⟩
    · have hseen' := (hend.seen_iff root).mp (hmono root (by simp))
      simpa using hseen'
    · intro n hn
      exact hend.below n (by simpa using hn)
    · intro n
      rw [hend.seen_iff]
      simp

include hless hsteps in
/-- **Every root is listed, and what the roots add is a listing.** -/
theorem covers_visitAll {roots : List Nat} (hroots : ∀ r ∈ roots, r < size) {done : List Nat}
    {seen : NumberSet} (hdone : IsListing children done)
    (hseen : ∀ n, seen.contains n = true ↔ n ∈ done) :
    Covers children size done (visitAll children steps seen roots) := by
  induction roots generalizing done seen with
  | nil => trivial
  | cons root rest ih =>
    obtain ⟨hlisting, hmem, hlt, hseen'⟩ :=
      visit_spec hless hsteps (hroots root (by simp)) hdone hseen
    exact ⟨hlisting, hmem, hlt, ih (fun r hr => hroots r (by simp [hr])) hlisting hseen'⟩

end

@[simp] theorem map_fst_visitAll (children : Nat → List Nat) (steps : Nat) (seen : NumberSet)
    (roots : List Nat) : (visitAll children steps seen roots).map Prod.fst = roots := by
  induction roots generalizing seen with
  | nil => rfl
  | cons root rest ih => rw [visitAll, List.map_cons, ih]

/-! ### Nothing else is listed -/

section

variable {P : Nat → Prop} (hchildren : ∀ n, P n → ∀ c ∈ children n, P c)

include hchildren

/-- What holds of the open nodes, and is passed on to children, holds of all that is listed. -/
theorem walk_forall {steps : Nat} {stack : List Frame} {seen : NumberSet} {listed : List Nat}
    (hstack : ∀ f ∈ stack, P f.node ∧ ∀ c ∈ f.waiting, P c) (hlisted : ∀ n ∈ listed, P n) :
    ∀ n ∈ (walk children steps stack seen listed).2, P n := by
  induction steps generalizing stack seen listed with
  | zero => exact hlisted
  | succ steps ih =>
    match stack with
    | [] => exact hlisted
    | ⟨node, []⟩ :: rest =>
      obtain ⟨hnode, hrest⟩ := List.forall_mem_cons.mp hstack
      exact ih hrest (List.forall_mem_cons.mpr ⟨hnode.1, hlisted⟩)
    | ⟨node, child :: waiting⟩ :: rest =>
      obtain ⟨⟨hnode, hwaiting⟩, hrest⟩ := List.forall_mem_cons.mp hstack
      obtain ⟨hchild, hwaiting⟩ := List.forall_mem_cons.mp hwaiting
      have hopen : ∀ f ∈ (⟨node, waiting⟩ : Frame) :: rest, P f.node ∧ ∀ c ∈ f.waiting, P c :=
        List.forall_mem_cons.mpr ⟨⟨hnode, hwaiting⟩, hrest⟩
      rw [walk]
      split
      · exact ih hopen hlisted
      · exact ih (List.forall_mem_cons.mpr ⟨⟨hchild, hchildren child hchild⟩, hopen⟩) hlisted

theorem visit_forall {steps : Nat} {seen : NumberSet} {root : Nat} (hroot : P root) :
    ∀ n ∈ (visit children steps seen root).2, P n := by
  rw [visit]
  split
  · simp
  · intro n hn
    refine walk_forall hchildren (fun f hf => ?_) (by simp) n (List.mem_reverse.mp hn)
    obtain rfl := List.mem_singleton.mp hf
    exact ⟨hroot, hchildren root hroot⟩

theorem visitAll_forall {steps : Nat} {seen : NumberSet} {roots : List Nat}
    (hroots : ∀ r ∈ roots, P r) :
    ∀ added ∈ visitAll children steps seen roots, ∀ n ∈ added.2, P n := by
  induction roots generalizing seen with
  | nil => exact fun _ h => absurd h List.not_mem_nil
  | cons root rest ih =>
    obtain ⟨hroot, hrest⟩ := List.forall_mem_cons.mp hroots
    exact List.forall_mem_cons.mpr ⟨visit_forall hchildren hroot, ih hrest⟩

end

end Postorder

end Fluxion
