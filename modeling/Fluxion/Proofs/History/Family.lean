import Fluxion.Identity
import Mathlib.Logic.Function.Basic

/-!
# Families of graphs

Graphs are made, copied and added to, in any order, and each has an identity of its own. A *family*
is what has become of all graphs so far. Its invariant is that a graph has the nodes that each of
its ancestors had when the copy was made. Since nodes are only added, this stays true whichever of
the two grows.

So the check of ownership is sound: whatever graph passes it has the same nodes, up to the last one
that counts, as the graph that the handles belong to.

## Main definitions

* `Arena` — graphs of some kind, as far as identities and nodes go
* `Arena.Inherits`, `Arena.Family` — the invariant
* `Arena.Continues` — what may become of a family

## Main results

* `Arena.Family.new`, `Arena.Family.fork`, `Arena.Family.grow` — what can happen to a family
* `Arena.Family.agreeBelow` — **graphs that pass the check have the same nodes**
-/

namespace Fluxion

/-! ### The last of several handles -/

theorem le_foldl_max {xs : List Nat} {start : Nat} :
    start ≤ xs.foldl max start ∧ ∀ x ∈ xs, x ≤ xs.foldl max start := by
  induction xs generalizing start with
  | nil => simp
  | cons x rest ih =>
    obtain ⟨hstart, hrest⟩ := @ih (max start x)
    rw [List.foldl_cons]
    refine ⟨by omega, fun y hy => ?_⟩
    rcases List.mem_cons.mp hy with rfl | hy
    · omega
    · exact hrest y hy

theorem foldl_max_lt {xs : List Nat} {start n : Nat} (hstart : start < n) (h : ∀ x ∈ xs, x < n) :
    xs.foldl max start < n := by
  induction xs generalizing start with
  | nil => exact hstart
  | cons x rest ih =>
    refine ih ?_ fun y hy => h y (List.mem_cons_of_mem x hy)
    have := h x (by simp)
    omega

/-- Graphs of one kind: the identity, the number of nodes, and what each node is. -/
structure Arena (G E : Type) where
  lineage : G → Lineage
  size : G → Nat
  entry : G → Nat → E

namespace Arena

variable {G E : Type} {A : Arena G E} {g h k : G} {m n : Nat}

/-- The first `n` nodes are the same. -/
def AgreeBelow (A : Arena G E) (g h : G) (n : Nat) : Prop := ∀ i < n, A.entry g i = A.entry h i

theorem AgreeBelow.symm (hgh : A.AgreeBelow g h n) : A.AgreeBelow h g n :=
  fun i hi => (hgh i hi).symm

theorem AgreeBelow.trans (hgh : A.AgreeBelow g h n) (hhk : A.AgreeBelow h k n) :
    A.AgreeBelow g k n :=
  fun i hi => (hgh i hi).trans (hhk i hi)

theorem AgreeBelow.mono (hgh : A.AgreeBelow g h n) (hmn : m ≤ n) : A.AgreeBelow g h m :=
  fun i hi => hgh i (Nat.lt_of_lt_of_le hi hmn)

/-- `h` has come from `g` by adding nodes. -/
structure Grows (A : Arena G E) (g h : G) : Prop where
  lineage : A.lineage h = A.lineage g
  size_le : A.size g ≤ A.size h
  agreeBelow : A.AgreeBelow g h (A.size g)

/-- The graph has the nodes that its ancestors had when it was copied. -/
def Inherits (A : Arena G E) (gs : GraphId → Option G) (g : G) : Prop :=
  ∀ a ∈ (A.lineage g).ancestors, ∃ h, gs a.1 = some h ∧ a.2 ≤ A.size h ∧ a.2 ≤ A.size g ∧
    A.AgreeBelow h g a.2

/-- Graphs by identity, all of which have inherited what they should. -/
structure Family (A : Arena G E) (gs : GraphId → Option G) : Prop where
  id : ∀ i g, gs i = some g → (A.lineage g).id = i
  inherits : ∀ i g, gs i = some g → A.Inherits gs g

section Families

variable {gs hs : GraphId → Option G} {i j : GraphId} {last : Nat}

/-- Graphs are still there, perhaps with more nodes. -/
def Continues (A : Arena G E) (gs hs : GraphId → Option G) : Prop :=
  ∀ i g, gs i = some g → ∃ h, hs i = some h ∧ A.Grows g h

theorem Grows.refl (g : G) : A.Grows g g := ⟨rfl, Nat.le_refl _, fun _ _ => rfl⟩

theorem Inherits.continues (hg : A.Inherits gs g) (hgs : A.Continues gs hs) : A.Inherits hs g := by
  intro a ha
  obtain ⟨h, hh, hsize, hle, hagree⟩ := hg a ha
  obtain ⟨k, hk, hgrow⟩ := hgs a.1 h hh
  exact ⟨k, hk, Nat.le_trans hsize hgrow.size_le, hle,
    (hgrow.agreeBelow.mono hsize).symm.trans hagree⟩

theorem Inherits.grow (hg : A.Inherits gs g) (hgrow : A.Grows g h) : A.Inherits gs h := by
  intro a ha
  rw [hgrow.lineage] at ha
  obtain ⟨k, hk, hsize, hle, hagree⟩ := hg a ha
  exact ⟨k, hk, hsize, Nat.le_trans hle hgrow.size_le, hagree.trans (hgrow.agreeBelow.mono hle)⟩

/-- What holds of all graphs still holds after one has been put in, if it holds of that one. -/
theorem forall_update {P : GraphId → G → Prop} (hold : ∀ j h, j ≠ i → gs j = some h → P j h)
    (hnew : P i g) : ∀ j h, Function.update gs i (some g) j = some h → P j h := by
  intro j h hj
  by_cases hji : j = i
  · rw [hji, Function.update_self, Option.some.injEq] at hj
    rw [hji, ← hj]
    exact hnew
  · rw [Function.update_of_ne hji] at hj
    exact hold j h hji hj

theorem continues_fresh (hfresh : gs i = none) :
    A.Continues gs (Function.update gs i (some g)) := by
  intro j h hj
  have hji : j ≠ i := fun hji => by simp [← hji, hj] at hfresh
  exact ⟨h, by rw [Function.update_of_ne hji, hj], .refl h⟩

theorem continues_grow (hg : gs i = some g) (hgrow : A.Grows g h) :
    A.Continues gs (Function.update gs i (some h)) := by
  intro j k hj
  by_cases hji : j = i
  · rw [hji, hg, Option.some.injEq] at hj
    exact ⟨h, by rw [hji, Function.update_self], hj ▸ hgrow⟩
  · exact ⟨k, by rw [Function.update_of_ne hji, hj], .refl k⟩

namespace Family

theorem empty : A.Family fun _ => none :=
  ⟨fun _ _ h => absurd h (by simp), fun _ _ h => absurd h (by simp)⟩

theorem update (hgs : A.Family gs) (hcontinues : A.Continues gs (Function.update gs i (some g)))
    (hid : (A.lineage g).id = i) (hg : A.Inherits (Function.update gs i (some g)) g) :
    A.Family (Function.update gs i (some g)) :=
  ⟨forall_update (fun j h _ hj => hgs.id j h hj) hid,
    forall_update (fun j h _ hj => (hgs.inherits j h hj).continues hcontinues) hg⟩

/-- Another graph without ancestors. -/
theorem new (hgs : A.Family gs) (hfresh : gs i = none) (hg : A.lineage g = .root i) :
    A.Family (Function.update gs i (some g)) := by
  refine hgs.update (continues_fresh hfresh) (by rw [hg]; rfl) fun a ha => ?_
  rw [hg] at ha
  exact absurd ha List.not_mem_nil

/-- A copy. -/
theorem fork (hgs : A.Family gs) (hfresh : gs i = none) (hg : gs j = some g)
    (hlineage : A.lineage h = (A.lineage g).fork i (A.size g)) (hsize : A.size h = A.size g)
    (hentry : A.AgreeBelow g h (A.size g)) : A.Family (Function.update gs i (some h)) := by
  have hcontinues : A.Continues gs (Function.update gs i (some h)) := continues_fresh hfresh
  refine hgs.update hcontinues (by rw [hlineage]; rfl) fun a ha => ?_
  rw [hlineage] at ha
  rcases List.mem_append.mp ha with ha | ha
  · obtain ⟨k, hk, hak, hag, hagree⟩ := (hgs.inherits j g hg).continues hcontinues a ha
    exact ⟨k, hk, hak, hsize ▸ hag, hagree.trans (hentry.mono hag)⟩
  · obtain rfl := List.mem_singleton.mp ha
    rw [hgs.id j g hg]
    obtain ⟨k, hk, hgrow⟩ := hcontinues j g hg
    exact ⟨k, hk, hgrow.size_le, hsize ▸ Nat.le_refl _, hgrow.agreeBelow.symm.trans hentry⟩

/-- More nodes in one of the graphs. -/
theorem grow (hgs : A.Family gs) (hg : gs i = some g) (hgrow : A.Grows g h) :
    A.Family (Function.update gs i (some h)) :=
  have hcontinues := continues_grow hg hgrow
  hgs.update hcontinues (by rw [hgrow.lineage, hgs.id i g hg])
    (((hgs.inherits i g hg).grow hgrow).continues hcontinues)

/-- **The check of ownership is sound.** A graph that passes it has the nodes of the owner. -/
theorem agreeBelow (hgs : A.Family gs) (hg : gs i = some g) (hh : gs j = some h)
    (hlast : last < A.size h) (hshares : (A.lineage g).shares j last = true) :
    last < A.size g ∧ A.AgreeBelow h g (last + 1) := by
  rw [Lineage.shares, Bool.or_eq_true, beq_iff_eq, List.any_eq_true] at hshares
  rcases hshares with hid | ⟨a, ha, hshares⟩
  · obtain rfl : i = j := (hgs.id i g hg).symm.trans hid.symm
    obtain rfl : g = h := Option.some.inj (hg.symm.trans hh)
    exact ⟨hlast, fun _ _ => rfl⟩
  · obtain ⟨o, ho, hlo, hlg, hagree⟩ := hgs.inherits i g hg a ha
    rw [Bool.and_eq_true, beq_iff_eq, decide_eq_true_eq] at hshares
    obtain ⟨hid, hlt⟩ := hshares
    obtain rfl : o = h := by
      rw [hid, hh] at ho
      exact (Option.some.inj ho).symm
    exact ⟨Nat.lt_of_lt_of_le hlt hlg, hagree.mono hlt⟩

end Family

end Families

end Arena

end Fluxion
