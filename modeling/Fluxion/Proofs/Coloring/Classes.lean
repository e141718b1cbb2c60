import Fluxion.Proofs.Jacobian.Seeding

/-!
# Color classes

A coloring splits the columns into its groups: every column is in the group of its color and in no
other. A greedy coloring takes a new color only when it gives it to a column, so none of its groups is
empty.

## Main results

* `Coloring.flatten_groups_perm` — **groups partition the columns**
* `Coloring.lt_count_greedy_iff` — the colors of a greedy coloring are those below its count
* `seeded_eq_sum` — a sum over a group of distinct components
-/

namespace Fluxion

namespace Coloring

variable {coloring : Coloring} {j k s n : Nat}

theorem lt_size_of_color? (h : coloring.color? k = some s) : k < coloring.colors.size :=
  (Array.getElem?_eq_some_iff.mp h).1

theorem exists_color? (hk : k < coloring.colors.size) : ∃ s, coloring.color? k = some s :=
  ⟨_, Array.getElem?_eq_getElem hk⟩

/-! ### Groups -/

theorem pairwise_groups (s : Nat) : (coloring.groups.getD s []).Pairwise (· < ·) := by
  rw [groups, List.getD_eq_getElem?_getD, Array.getElem?_toList, getElem?_buckets]
  split
  · rw [Option.getD_some, List.pairwise_filterMap]
    have hnumbers : coloring.colors.toList.zipIdx.Pairwise (·.2 < ·.2) := by
      have hrange := List.pairwise_lt_range' (s := 0) (n := coloring.colors.toList.length)
      rw [← List.zipIdx_map_snd, List.pairwise_map] at hrange
      exact hrange
    refine hnumbers.imp ?_
    rintro ⟨c, j⟩ ⟨d, k⟩ hjk _ hj _ hk
    simp only [Option.ite_none_right_eq_some, Option.some.injEq] at hj hk
    rwa [← hj.2, ← hk.2]
  · exact List.Pairwise.nil

/-- **Groups partition the columns.** -/
theorem flatten_groups_perm (coloring : Coloring) :
    coloring.groups.flatten.Perm (List.range coloring.colors.size) := by
  have hget : ∀ t (ht : t < coloring.groups.length),
      coloring.groups[t] = coloring.groups.getD t [] := fun t ht =>
    (List.getD_eq_getElem _ _ ht).symm
  have hnodup : coloring.groups.flatten.Nodup := by
    refine List.nodup_flatten.mpr ⟨fun group hgroup => ?_, ?_⟩
    · obtain ⟨t, ht, rfl⟩ := List.getElem_of_mem hgroup
      exact hget t ht ▸ (pairwise_groups t).nodup
    · refine List.pairwise_iff_getElem.mpr fun t u ht hu htu k hkt hku => ?_
      rw [hget, mem_groups] at hkt hku
      exact Nat.ne_of_lt htu (Option.some.inj (hkt.symm.trans hku))
  refine (List.perm_ext_iff_of_nodup hnodup List.nodup_range).mpr fun k => ?_
  rw [List.mem_flatten, List.mem_range]
  constructor
  · rintro ⟨group, hgroup, hk⟩
    obtain ⟨t, ht, rfl⟩ := List.getElem_of_mem hgroup
    rw [hget, mem_groups] at hk
    exact lt_size_of_color? hk
  · intro hk
    obtain ⟨s, hs⟩ := exists_color? hk
    have hlt : s < coloring.groups.length := length_groups ▸ lt_of_color? hs
    refine ⟨coloring.groups[s], List.getElem_mem hlt, ?_⟩
    rw [hget, mem_groups]
    exact hs

/-- Every color below the count is the color of a column. -/
def UsesAll (coloring : Coloring) : Prop := ∀ c < coloring.count, ∃ j, coloring.color? j = some c

theorem UsesAll.ne_nil (h : coloring.UsesAll) {group : List Nat} (hgroup : group ∈ coloring.groups) :
    group ≠ [] := by
  obtain ⟨s, hs, rfl⟩ := List.getElem_of_mem hgroup
  obtain ⟨j, hj⟩ := h s (length_groups ▸ hs)
  have hmem := mem_groups.mpr hj
  rw [List.getD_eq_getElem _ _ hs] at hmem
  exact List.ne_nil_of_mem hmem

theorem UsesAll.lt_count_iff (h : coloring.UsesAll) :
    s < coloring.count ↔ ∃ j, coloring.color? j = some s :=
  ⟨h s, fun ⟨_, hj⟩ => lt_of_color? hj⟩

/-! ### The colorings of plans -/

@[simp] theorem size_identity (n : Nat) : (identity n).colors.size = n := Array.size_range

theorem usesAll_identity (n : Nat) : (identity n).UsesAll := fun c hc => ⟨c, color?_identity hc⟩

theorem usesAll_greedy (forbidden : Array Nat → List Nat) (n : Nat) :
    (greedy forbidden n).UsesAll := by
  induction n with
  | zero => exact usesAll_identity 0
  | succ n ih =>
    have hle := firstFree_le (greedy forbidden n).count (forbidden (greedy forbidden n).colors)
    have hlast : (greedy forbidden (n + 1)).color? n
        = some (firstFree (greedy forbidden n).count (forbidden (greedy forbidden n).colors)) := by
      rw [color?, greedy, extend, Array.getElem?_push, size_greedy, if_pos rfl]
    intro c hc
    by_cases hold : c < (greedy forbidden n).count
    · obtain ⟨j, hj⟩ := ih c hold
      have hjn : j < n := by simpa using lt_size_of_color? hj
      exact ⟨j, (color?_greedy_of_le hjn (Nat.le_succ n)).trans hj⟩
    · refine ⟨n, hlast.trans (congrArg some ?_)⟩
      simp only [greedy, extend] at hc
      split at hc <;> omega

/-- The colors of a greedy coloring are the numbers below its count. -/
theorem lt_count_greedy_iff {forbidden : Array Nat → List Nat} :
    s < (greedy forbidden n).count ↔ ∃ j, (greedy forbidden n).color? j = some s :=
  (usesAll_greedy forbidden n).lt_count_iff

end Coloring

/-! ### Sums -/

/-- The sum over a group of distinct components, in the order of the group. -/
theorem seeded_eq_sum {V : Type*} [AddCommMonoid V] {n : Nat} {group : List Nat} {f : Nat → V}
    (hnodup : group.Nodup) (hlt : ∀ k ∈ group, k < n) : seeded n group f = (group.map f).sum := by
  have hperm : ((List.range n).filter (· ∈ group)).Perm group := by
    refine (List.perm_ext_iff_of_nodup (List.nodup_range.filter _) hnodup).mpr fun k => ?_
    rw [List.mem_filter, List.mem_range, decide_eq_true_eq]
    exact ⟨And.right, fun h => ⟨hlt k h, h⟩⟩
  exact (hperm.map f).sum_eq

end Fluxion
