import Mathlib.Data.List.Forall2
import Mathlib.Data.List.Nodup

/-!
# Lists in step

Two lists are related entry by entry when they have the same length and entries at the same place are
related. Whatever goes through lists place by place keeps such relations.

## Main results

* `forall₂_getD`, `forall₂_set`, `forall₂_replicate`, `forall₂_map_same`, `forall₂_flatMap_same`,
  `forall₂_zip_same` — operations on lists in step
* `forall₂_of_rel` — lists that are in step wherever they are looked at
* `map_eq_map_of_forall₂` — lists in step have equal images
-/

namespace Fluxion

variable {α β ι : Type} {S : α → β → Prop} {as : List α} {bs : List β} {a : α} {b : β}

theorem forall₂_getD (h : List.Forall₂ S as bs) (hab : S a b) (k : Nat) :
    S (as.getD k a) (bs.getD k b) := by
  induction h generalizing k with
  | nil => exact hab
  | cons hxy _ ih =>
    cases k with
    | zero => exact hxy
    | succ k => exact ih k

theorem forall₂_set (h : List.Forall₂ S as bs) (hab : S a b) (k : Nat) :
    List.Forall₂ S (as.set k a) (bs.set k b) := by
  induction h generalizing k with
  | nil => exact .nil
  | cons hxy hrest ih =>
    cases k with
    | zero => exact .cons hab hrest
    | succ k => exact .cons hxy (ih k)

theorem forall₂_replicate (hab : S a b) (n : Nat) :
    List.Forall₂ S (List.replicate n a) (List.replicate n b) := by
  induction n with
  | zero => exact .nil
  | succ n ih => exact .cons hab ih

theorem forall₂_map_same {f : ι → α} {f' : ι → β} (items : List ι)
    (h : ∀ i ∈ items, S (f i) (f' i)) : List.Forall₂ S (items.map f) (items.map f') := by
  rw [List.forall₂_map_left_iff, List.forall₂_map_right_iff]
  exact List.forall₂_same.mpr h

theorem forall₂_flatMap_same {f : ι → List α} {f' : ι → List β} (items : List ι)
    (h : ∀ i ∈ items, List.Forall₂ S (f i) (f' i)) :
    List.Forall₂ S (items.flatMap f) (items.flatMap f') := by
  induction items with
  | nil => exact .nil
  | cons i rest ih =>
    rw [List.flatMap_cons, List.flatMap_cons]
    exact List.rel_append (h i (by simp)) (ih fun j hj => h j (List.mem_cons_of_mem i hj))

theorem forall₂_of_rel (h : ∀ k : Nat, Option.Rel S as[k]? bs[k]?) : List.Forall₂ S as bs := by
  induction as generalizing bs with
  | nil =>
    cases bs with
    | nil => exact .nil
    | cons b _ => nomatch h 0
  | cons a rest ih =>
    cases bs with
    | nil => nomatch h 0
    | cons b _ =>
      have hfirst : Option.Rel S (some a) (some b) := h 0
      cases hfirst with
      | some hab => exact .cons hab (ih fun k => h (k + 1))

/-- What is related in lists in step are members. -/
theorem forall₂_and_mem (h : List.Forall₂ S as bs) :
    List.Forall₂ (fun a b => a ∈ as ∧ S a b) as bs := by
  induction h with
  | nil => exact .nil
  | cons hab _ ih =>
    exact .cons ⟨List.mem_cons_self .., hab⟩
      (ih.imp fun _ _ h => ⟨List.mem_cons_of_mem _ h.1, h.2⟩)

theorem forall_of_forall₂ {P : β → Prop} (h : List.Forall₂ (fun _ b => P b) as bs) :
    ∀ b ∈ bs, P b := by
  induction h with
  | nil => simp
  | cons hb _ ih => exact List.forall_mem_cons.mpr ⟨hb, ih⟩

/-- Lists that are in step in many ways are in step in all of them. -/
theorem forall₂_forall [Inhabited ι] {R : ι → α → β → Prop} (h : ∀ i, List.Forall₂ (R i) as bs) :
    List.Forall₂ (fun a b => ∀ i, R i a b) as bs := by
  induction h default with
  | nil => exact .nil
  | cons _ _ ih =>
    exact .cons (fun i => (List.forall₂_cons.mp (h i)).1)
      (ih fun i => (List.forall₂_cons.mp (h i)).2)

/-- Every member of the first list is related to something. -/
theorem exists_of_forall₂ (h : List.Forall₂ S as bs) (ha : a ∈ as) : ∃ b ∈ bs, S a b := by
  induction h with
  | nil => cases ha
  | cons hab _ ih =>
    rcases List.mem_cons.mp ha with rfl | ha
    · exact ⟨_, List.mem_cons_self .., hab⟩
    · obtain ⟨b, hb, hab⟩ := ih ha
      exact ⟨b, List.mem_cons_of_mem _ hb, hab⟩

/-- Lists in step have equal images, if related entries have. -/
theorem map_eq_map_of_forall₂ {f : α → ι} {f' : β → ι} (h : List.Forall₂ S as bs)
    (heq : ∀ a ∈ as, ∀ b, S a b → f a = f' b) : as.map f = bs.map f' := by
  refine List.forall₂_eq_eq_eq ▸ List.forall₂_map_left_iff.mpr (List.forall₂_map_right_iff.mpr ?_)
  exact (forall₂_and_mem h).imp fun a b hab => heq a hab.1 b hab.2

theorem map_map_of_forall₂ (f : α → ι) (f' : β → ι) {xs : List (List α)}
    {ys : List (List β)} (h : List.Forall₂ (List.Forall₂ S) xs ys)
    (heq : ∀ a b, S a b → f a = f' b) : xs.map (·.map f) = ys.map (·.map f') :=
  map_eq_map_of_forall₂ h fun _ _ _ hrow => map_eq_map_of_forall₂ hrow fun a _ b => heq a b

theorem getD_of_getElem? {k : Nat} (h : as[k]? = some a) (d : α) : as.getD k d = a := by
  rw [List.getD_eq_getElem?_getD, h]
  rfl

theorem idxOf?_of_getElem? {ι : Type*} [BEq ι] [LawfulBEq ι] {l : List ι} (hnodup : l.Nodup) {x : ι}
    {i : Nat} (h : l[i]? = some x) : l.idxOf? x = some i := by
  obtain ⟨hi, hx⟩ := List.getElem?_eq_some_iff.mp h
  refine List.idxOf?_eq_some_iff.mpr ⟨hi, hx, fun j hj hjx => ?_⟩
  exact Nat.ne_of_lt hj ((hnodup.getElem_inj_iff).mp (hjx.trans hx.symm))

theorem getElem?_eq_of_idxOf? {ι : Type*} [BEq ι] [LawfulBEq ι] {l : List ι} {x : ι} {i : Nat}
    (h : l.idxOf? x = some i) : l[i]? = some x := by
  obtain ⟨hi, hx, -⟩ := List.idxOf?_eq_some_iff.mp h
  rw [List.getElem?_eq_getElem hi, hx]

theorem forall₂_meet {γ : Type*} {R : γ → β → Prop} {T : α → γ → Prop} {cs : List γ}
    (h : List.Forall₂ S as bs) (h' : List.Forall₂ R cs bs)
    (himp : ∀ a b c, S a b → R c b → T a c) : List.Forall₂ T as cs := by
  induction h generalizing cs with
  | nil =>
    cases h'
    exact .nil
  | cons hab _ ih =>
    cases h' with
    | cons hcb hrest => exact .cons (himp _ _ _ hab hcb) (ih hrest)

theorem forall₂_zip {γ : Type*} {R : α → γ → Prop} {cs : List γ} (h : List.Forall₂ S as bs)
    (h' : List.Forall₂ R as cs) :
    List.Forall₂ (fun a (bc : β × γ) => S a bc.1 ∧ R a bc.2) as (bs.zip cs) := by
  induction h generalizing cs with
  | nil => exact .nil
  | cons hab _ ih =>
    cases h' with
    | cons hac hrest => exact .cons ⟨hab, hac⟩ (ih hrest)

/-- Zipping with one list keeps what is in step. -/
theorem forall₂_zip_same (h : List.Forall₂ S as bs) (items : List ι) :
    List.Forall₂ (fun (x : ι × α) (y : ι × β) => x.1 = y.1 ∧ S x.2 y.2) (items.zip as)
      (items.zip bs) := by
  induction h generalizing items with
  | nil => simp
  | cons hab _ ih =>
    cases items with
    | nil => exact .nil
    | cons i rest => exact .cons ⟨rfl, hab⟩ (ih rest)

theorem forall₂_zipWith_left {f : α → β → ι} {R : ι → α → Prop}
    (h : List.Forall₂ (fun a b => R (f a b) a) as bs) : List.Forall₂ R (List.zipWith f as bs) as := by
  induction h with
  | nil => exact .nil
  | cons hab _ ih => exact .cons hab ih

theorem forall₂_zipWith_right {f : α → β → ι} {R : ι → β → Prop}
    (h : List.Forall₂ (fun a b => R (f a b) b) as bs) : List.Forall₂ R (List.zipWith f as bs) bs := by
  induction h with
  | nil => exact .nil
  | cons hab _ ih => exact .cons hab ih

end Fluxion
