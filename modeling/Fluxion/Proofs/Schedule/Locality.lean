import Fluxion.Proofs.Schedule.Faithful

/-!
# Schedules look at nothing else

A schedule is made of the nodes that the roots are built from. Two graphs whose nodes have the same
operands below a bound have the same schedules for roots below it, however many nodes either of them
has besides. In particular it does not matter how many steps a walk may take, and how large the tables
are that it is done with, if they are large enough.

## Main results

* `Postorder.walk_congr`, `Postorder.visitAll_congr` — walks
* `Schedule.make_congr` — **schedules depend on the nodes below the roots only**
-/

namespace Fluxion

namespace Postorder

variable {children children' : Nat → List Nat} {bound : Nat}

theorem pending_congr (hagree : ∀ n < bound, children n = children' n) (seen : NumberSet) :
    pending children seen bound = pending children' seen bound := by
  induction bound with
  | zero => rfl
  | succ n ih =>
    rw [pending, pending, ih fun m hm => hagree m (Nat.lt_succ_of_lt hm),
      hagree n (Nat.lt_succ_self n)]

section

variable (hless : ∀ n, ∀ a ∈ children n, a < n) (hagree : ∀ n < bound, children n = children' n)

include hless hagree

/-- Two walks that may take enough steps are one. -/
theorem walk_congr {steps steps' : Nat} {stack : List Frame} {seen : NumberSet} {listed : List Nat}
    (hstack : ∀ f ∈ stack, ∀ c ∈ f.waiting, c < bound)
    (hsteps : frameSteps stack + pending children seen bound ≤ steps)
    (hsteps' : frameSteps stack + pending children seen bound ≤ steps') :
    walk children steps stack seen listed = walk children' steps' stack seen listed := by
  induction steps generalizing steps' stack seen listed with
  | zero =>
    match stack with
    | [] => cases steps' <;> rfl
    | ⟨node, waiting⟩ :: rest =>
      rw [frameSteps_cons] at hsteps
      omega
  | succ steps ih =>
    match stack, steps' with
    | [], 0 | [], _ + 1 => rfl
    | ⟨node, waiting⟩ :: rest, 0 =>
      rw [frameSteps_cons] at hsteps'
      omega
    | ⟨node, []⟩ :: rest, steps' + 1 =>
      rw [frameSteps_cons, List.length_nil] at hsteps hsteps'
      rw [walk, walk]
      exact ih (fun f hf => hstack f (List.mem_cons_of_mem _ hf)) (by omega) (by omega)
    | ⟨node, child :: waiting⟩ :: rest, steps' + 1 =>
      rw [frameSteps_cons, List.length_cons] at hsteps hsteps'
      obtain ⟨hnode, hrest⟩ := List.forall_mem_cons.mp hstack
      obtain ⟨hchild, hwaiting⟩ := List.forall_mem_cons.mp hnode
      have hopen : ∀ f ∈ (⟨node, waiting⟩ : Frame) :: rest, ∀ c ∈ f.waiting, c < bound :=
        List.forall_mem_cons.mpr ⟨hwaiting, hrest⟩
      rw [walk, walk]
      cases hseen : seen.contains child with
      | true => exact ih hopen (by rw [frameSteps_cons]; omega) (by rw [frameSteps_cons]; omega)
      | false =>
        have hpaid : pending children (seen.insert child) bound + ((children child).length + 1)
            = pending children seen bound := pending_insert hseen hchild
        simp only [Bool.false_eq_true, if_false, ← hagree child hchild]
        refine ih (List.forall_mem_cons.mpr
          ⟨fun c hc => Nat.lt_trans (hless child c hc) hchild, hopen⟩) ?_ ?_ <;>
          · rw [frameSteps_cons, frameSteps_cons]
            omega

theorem visit_congr {steps steps' root : Nat} {seen : NumberSet} (hroot : root < bound)
    (hsteps : pending children seen bound ≤ steps) (hsteps' : pending children seen bound ≤ steps') :
    visit children steps seen root = visit children' steps' seen root := by
  rw [visit, visit]
  cases hseen : seen.contains root with
  | true => rfl
  | false =>
    have hpaid : pending children (seen.insert root) bound + ((children root).length + 1)
        = pending children seen bound := pending_insert hseen hroot
    have hwalk : walk children steps [⟨root, children root⟩] (seen.insert root) []
        = walk children' steps' [⟨root, children root⟩] (seen.insert root) [] := by
      refine walk_congr hless hagree (fun f hf c hc => ?_) ?_ ?_
      · obtain rfl := List.mem_singleton.mp hf
        exact Nat.lt_trans (hless root c hc) hroot
      · rw [frameSteps_cons, frameSteps_nil]
        omega
      · rw [frameSteps_cons, frameSteps_nil]
        omega
    simp only [Bool.false_eq_true, if_false, ← hagree root hroot, hwalk]

theorem visitAll_congr {steps steps' : Nat} {roots : List Nat} (hroots : ∀ r ∈ roots, r < bound)
    {seen : NumberSet} (hsteps : stepBound children bound ≤ steps)
    (hsteps' : stepBound children bound ≤ steps') :
    visitAll children steps seen roots = visitAll children' steps' seen roots := by
  have hpending : ∀ seen, pending children seen bound ≤ stepBound children bound := fun seen => by
    rw [← pending_empty]
    exact pending_mono (fun n hn => by simp at hn) bound
  induction roots generalizing seen with
  | nil => rfl
  | cons root rest ih =>
    obtain ⟨hroot, hrest⟩ := List.forall_mem_cons.mp hroots
    rw [visitAll, visitAll, visit_congr hless hagree hroot (Nat.le_trans (hpending seen) hsteps)
      (Nat.le_trans (hpending seen) hsteps')]
    exact congrArg _ (ih hrest)

end

end Postorder

theorem Step.Ordered.node_lt {operands : Nat → List Nat} {bound : Nat} {done : List Nat}
    {steps : List Step} (h : Ordered operands bound done steps) (hdone : ∀ n ∈ done, n < bound) :
    ∀ s ∈ steps, s.node < bound := by
  induction steps generalizing done with
  | nil => simp
  | cons s rest ih =>
    cases s with
    | compute n =>
      obtain ⟨-, hn, -, hrest⟩ := h
      refine List.forall_mem_cons.mpr ⟨hn, ih hrest fun m hm => ?_⟩
      rcases List.mem_append.mp hm with hm | hm
      · exact hdone m hm
      · exact List.mem_singleton.mp hm ▸ hn
    | store root n => exact List.forall_mem_cons.mpr ⟨hdone n h.1, ih h.2 hdone⟩

namespace Schedule

variable {operands operands' : Nat → List Nat} {bound size size' : Nat} {roots : List Nat}

theorem position_congr {steps : List Step} {n : Nat} (hn : n < size) (hn' : n < size') :
    position (positions size steps) n = position (positions size' steps) n := by
  rw [position, position, positions, positions, Array.getD_eq_getD_getElem?,
    Array.getD_eq_getD_getElem?, getElem?_buckets, getElem?_buckets, if_pos hn, if_pos hn']

section

variable (hless : ∀ n, ∀ a ∈ operands n, a < n) (hagree : ∀ n < bound, operands n = operands' n)
  (hsize : bound ≤ size) (hsize' : bound ≤ size') (hroots : ∀ r ∈ roots, r < bound)

include hless hagree hsize hsize' hroots

theorem stepsFor_congr : stepsFor operands size roots = stepsFor operands' size' roots := by
  have hbound : Postorder.stepBound operands bound ≤ Postorder.stepBound operands' size' := by
    refine Nat.le_trans (Nat.le_of_eq ?_) (Postorder.stepBound_mono hsize')
    rw [← Postorder.pending_empty, ← Postorder.pending_empty, Postorder.pending_congr hagree]
  rw [stepsFor, stepsFor, Postorder.visitAll_congr hless hagree hroots
    (Postorder.stepBound_mono hsize) hbound]

/-- **Schedules depend on the nodes below the roots only.** -/
theorem make_congr : make operands size roots = make operands' size' roots := by
  have hnodes := (ordered_stepsFor_of_le hless hsize hroots).node_lt (by simp)
  have hsteps := stepsFor_congr hless hagree hsize hsize' hroots
  have hdemands : ∀ s ∈ stepsFor operands size roots,
      demand operands (positions size (stepsFor operands size roots)) s
        = demand operands' (positions size' (stepsFor operands size roots)) s := by
    intro s hs
    have hposition : ∀ n < bound,
        position (positions size (stepsFor operands size roots)) n
          = position (positions size' (stepsFor operands size roots)) n := fun n hn =>
      position_congr (Nat.lt_of_lt_of_le hn hsize) (Nat.lt_of_lt_of_le hn hsize')
    have hnode := hnodes s hs
    cases s with
    | compute n =>
      rw [demand, demand, ← hagree n hnode]
      refine congrArg (Demand.mk · true) (List.map_congr_left fun a ha => ?_)
      exact hposition a (Nat.lt_trans (hless n a ha) hnode)
    | store root n => rw [demand, demand, hposition n hnode]
  rw [make, make, ← hsteps]
  dsimp only
  rw [List.map_congr_left hdemands]

end

end Schedule

end Fluxion
