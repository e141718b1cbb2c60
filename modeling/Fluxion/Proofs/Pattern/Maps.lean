import Fluxion.Expression.MatrixBuilder
import Fluxion.Proofs.Pattern.Positions
import Mathlib.Algebra.BigOperators.Group.List.Basic
import Mathlib.Algebra.GroupWithZero.Nat

/-!
# Maps between nonzeros

A rearrangement takes the nonzeros of a result from nonzeros of its arguments, by number. For each
kind of rearrangement there is a map; it has an entry for every nonzero of the result and only names
nonzeros that there are.

## Main results

* `Pattern.lt_nnz_of_mem_locate` — projection
* `Pattern.map_transposeMap` — **the map of a transpose lists its positions**
* `MatrixBuilder.length_stackMap`, `MatrixBuilder.exists_of_mem_stackMap` — parts on top of each other
* `MatrixBuilder.length_besideMap`, `MatrixBuilder.exists_of_mem_besideMap` — parts side by side
-/

namespace Fluxion

theorem toList_buckets {α : Type} (n : Nat) (items : List (Nat × α)) :
    (buckets n items).toList
      = (List.range n).map fun i => items.filterMap fun (k, a) => if k = i then some a else none := by
  refine List.ext_getElem? fun i => ?_
  rw [Array.getElem?_toList, getElem?_buckets, List.getElem?_map]
  by_cases hi : i < n
  · rw [if_pos hi, List.getElem?_range hi]
    rfl
  · rw [if_neg hi, List.getElem?_eq_none (by simpa using hi)]
    rfl

namespace Pattern

variable {p q : Pattern} {r c j k : Nat}

theorem lt_nnz_of_find? (h : p.find? r c = some k) : k < p.nnz :=
  (List.getElem?_eq_some_iff.mp (find?_eq_some_iff.mp h)).1

theorem lt_nnz_of_mem_locate {target : Pattern} (h : some k ∈ p.locate target) : k < p.nnz := by
  rw [locate_eq_map_find?] at h
  obtain ⟨⟨r, c⟩, -, hfind⟩ := List.mem_map.mp h
  exact lt_nnz_of_find? hfind

theorem nnz_eq (p : Pattern) : p.nnz = p.columns.flatten.length :=
  length_flatMap_zipIdx p.columns 0

theorem nnz_dense (nrows ncols : Nat) : (dense nrows ncols).nnz = nrows * ncols := by
  simp [nnz_eq, dense, List.length_flatten, Nat.mul_comm]

@[simp] theorem nrows_dense (nrows ncols : Nat) : (dense nrows ncols).nrows = nrows := rfl

@[simp] theorem ncols_dense (nrows ncols : Nat) : (dense nrows ncols).ncols = ncols := by
  simp [dense, Pattern.ncols]

@[simp] theorem ncols_empty (nrows ncols : Nat) : (empty nrows ncols).ncols = ncols := by
  simp [empty, Pattern.ncols]

theorem isDense_dense (nrows ncols : Nat) : (dense nrows ncols).isDense = true := by
  rw [isDense, nnz_dense, numel, nrows_dense, ncols_dense]
  exact beq_self_eq_true _

/-! ### Joined parts -/

theorem totalRows_eq_sum (parts : List Pattern) : totalRows parts = (parts.map nrows).sum := by
  rw [totalRows, List.sum, List.foldr_map]

theorem totalColumns_eq_sum (parts : List Pattern) :
    totalColumns parts = (parts.map ncols).sum := by
  rw [totalColumns, List.sum, List.foldr_map]

theorem shape_stack (parts : List Pattern) :
    (stack parts).shape = ((parts.map nrows).sum, parts.head?.elim 0 ncols) := by
  simp [shape, stack, Pattern.ncols, totalRows_eq_sum]

/-! ### Transposition -/

/-- The nonzeros in one row, in the order of their numbers. -/
theorem map_filterMap_rows (p : Pattern) (i : Nat) :
    (p.rows.zipIdx.filterMap fun (r, k) => if r = i then some k else none).map
        (fun k => (p.positions.getD k (0, 0)).swap)
      = (p.positions.filter (·.1 = i)).map Prod.swap := by
  have hmem : ∀ x ∈ p.positions.zipIdx,
      ((if x.1.1 = i then some x.2 else none).map fun k => (p.positions.getD k (0, 0)).swap)
        = if x.1.1 = i then some x.1.swap else none := by
    rintro ⟨x, k⟩ hx
    have hget : p.positions[k]? = some x := List.mk_mem_zipIdx_iff_getElem?.mp hx
    split
    · simp [List.getD_eq_getElem?_getD, hget]
    · rfl
  rw [rows, List.zipIdx_map, List.filterMap_map, List.map_filterMap]
  refine (List.filterMap_congr hmem).trans ?_
  conv_rhs => rw [← List.zipIdx_map_fst 0 p.positions]
  rw [List.filter_map, List.map_map, ← List.filterMap_eq_map, List.filterMap_filter]
  simp

/-- **The map of a transpose lists its positions**, each by the nonzero that it comes from. -/
theorem map_transposeMap (p : Pattern) :
    p.transposeMap.map (fun k => (p.positions.getD k (0, 0)).swap) = p.transpose.positions := by
  have hmap : p.transposeMap.map (fun k => (p.positions.getD k (0, 0)).swap)
      = (List.range p.nrows).flatMap fun i => (p.positions.filter (·.1 = i)).map Prod.swap := by
    rw [transposeMap, toList_buckets, List.map_flatten, List.map_map, List.flatMap]
    exact congrArg List.flatten (List.map_congr_left fun i _ => p.map_filterMap_rows i)
  rw [hmap]
  refine (positions_eq ?_ fun r c => ?_).symm
  · rw [List.pairwise_flatMap]
    refine ⟨fun i _ => ?_, List.pairwise_lt_range.imp fun {i i'} hi x hx y hy => ?_⟩
    · rw [List.pairwise_map]
      refine (p.pairwise_positions.filter _).imp_of_mem ?_
      rintro ⟨r, c⟩ ⟨r', c'⟩ hx hy hbefore
      obtain rfl : r = i := by simpa using (List.mem_filter.mp hx).2
      obtain rfl : r' = r := by simpa using (List.mem_filter.mp hy).2
      refine .inr ⟨rfl, ?_⟩
      rcases hbefore with hc | ⟨-, hr⟩
      · exact hc
      · exact absurd hr (Nat.lt_irrefl _)
    · obtain ⟨⟨r, c⟩, hr, rfl⟩ := List.mem_map.mp hx
      obtain ⟨⟨r', c'⟩, hr', rfl⟩ := List.mem_map.mp hy
      obtain rfl : r = i := by simpa using (List.mem_filter.mp hr).2
      obtain rfl : r' = i' := by simpa using (List.mem_filter.mp hr').2
      exact .inl hi
  · rw [mem_positions_transpose, List.mem_flatMap]
    constructor
    · intro h
      exact ⟨c, List.mem_range.mpr (row_lt_of_mem_positions h), List.mem_map.mpr
        ⟨(c, r), List.mem_filter.mpr ⟨h, by simp⟩, rfl⟩⟩
    · rintro ⟨i, -, hi⟩
      obtain ⟨x, hx, heq⟩ := List.mem_map.mp hi
      obtain rfl : x = (c, r) := Prod.swap_eq_iff_eq_swap.mp heq
      exact (List.mem_filter.mp hx).1

theorem length_transposeMap (p : Pattern) : p.transposeMap.length = p.transpose.nnz := by
  rw [nnz, ← map_transposeMap, List.length_map]

theorem lt_nnz_of_mem_transposeMap (h : k ∈ p.transposeMap) : k < p.nnz := by
  rw [transposeMap, toList_buckets, List.mem_flatten] at h
  obtain ⟨numbers, hnumbers, hk⟩ := h
  obtain ⟨i, -, rfl⟩ := List.mem_map.mp hnumbers
  obtain ⟨⟨r, l⟩, hl, heq⟩ := List.mem_filterMap.mp hk
  obtain rfl : l = k := (Option.ite_none_right_eq_some.mp heq).2 |> Option.some.inj
  have hget : p.rows[l]? = some r := List.mk_mem_zipIdx_iff_getElem?.mp hl
  simpa [rows, nnz] using (List.getElem?_eq_some_iff.mp hget).1

/-! ### Columns by number -/

theorem length_getD_numberFrom (columns : List (List Nat)) (first j : Nat) :
    ((numberFrom first columns).getD j []).length = (columns.getD j []).length := by
  induction columns generalizing first j with
  | nil => simp [numberFrom]
  | cons rows rest ih =>
    cases j with
    | zero => simp [numberFrom]
    | succ j => exact ih _ _

theorem lt_of_mem_numberFrom {columns : List (List Nat)} {first j : Nat}
    (h : (r, k) ∈ (numberFrom first columns).getD j []) : k < first + columns.flatten.length := by
  induction columns generalizing first j with
  | nil => simp [numberFrom] at h
  | cons rows rest ih =>
    rw [List.flatten_cons, List.length_append]
    cases j with
    | zero =>
      have hk : k < first + rows.length := by
        have := (List.mk_mem_zipIdx_iff_le_and_getElem?_sub.mp h).2
        have := (List.getElem?_eq_some_iff.mp this).1
        omega
      omega
    | succ j =>
      have := @ih (first + rows.length) j h
      omega

theorem lt_nnz_of_mem_numberedColumns (h : (r, k) ∈ p.numberedColumns.getD j []) : k < p.nnz := by
  simpa [nnz_eq] using lt_of_mem_numberFrom h

end Pattern

namespace MatrixBuilder

variable {patterns : List Pattern} {p : Pattern} {i k : Nat}

/-! ### Parts on top of each other -/

theorem length_stackColumn (patterns : List Pattern) (j offset first : Nat) :
    (((patterns.map (·.numberedColumns.toArray)).zipIdx first).flatMap fun (part, p) =>
        (part.getD j []).map fun (_, k) => some (p, k)).length
      = (Pattern.stackColumn j offset patterns).length := by
  induction patterns generalizing offset first with
  | nil => rfl
  | cons p rest ih =>
    rw [List.map_cons, List.zipIdx_cons, List.flatMap_cons, List.length_append, List.length_map,
      ih (offset + p.nrows) (first + 1), Pattern.stackColumn, List.length_append, List.length_map,
      Pattern.getD_toArray]
    exact congrArg (· + _) (Pattern.length_getD_numberFrom p.columns 0 j)

theorem length_stackMap (patterns : List Pattern) :
    (stackMap (patterns.head?.elim 0 Pattern.ncols) patterns).length
      = (Pattern.stack patterns).nnz := by
  rw [Pattern.nnz_eq, Pattern.stack, stackMap, List.flatMap, List.length_flatten,
    List.length_flatten, List.map_map, List.map_map]
  exact congrArg List.sum (List.map_congr_left fun j _ => length_stackColumn patterns j 0 0)

theorem exists_of_mem_stackMap {columns : Nat} (h : some (i, k) ∈ stackMap columns patterns) :
    ∃ p, patterns[i]? = some p ∧ k < p.nnz := by
  rw [stackMap, List.mem_flatMap] at h
  obtain ⟨j, -, h⟩ := h
  obtain ⟨⟨part, l⟩, hpart, h⟩ := List.mem_flatMap.mp h
  obtain ⟨⟨r, m⟩, hm, heq⟩ := List.mem_map.mp h
  obtain ⟨rfl, rfl⟩ := Prod.mk.injEq .. ▸ Option.some.inj heq
  have hget := List.mk_mem_zipIdx_iff_getElem?.mp hpart
  rw [List.getElem?_map, Option.map_eq_some_iff] at hget
  obtain ⟨p, hp, rfl⟩ := hget
  rw [Pattern.getD_toArray] at hm
  exact ⟨p, hp, Pattern.lt_nnz_of_mem_numberedColumns hm⟩

/-! ### Parts side by side -/

theorem length_besideMap (patterns : List Pattern) :
    (besideMap patterns).length = (patterns.flatMap Pattern.columns).flatten.length := by
  have general : ∀ first, ((patterns.zipIdx first).flatMap fun entry =>
      (List.range entry.1.nnz).map fun k => some (entry.2, k)).length
        = (patterns.flatMap Pattern.columns).flatten.length := by
    induction patterns with
    | nil => simp
    | cons p rest ih =>
      intro first
      rw [List.zipIdx_cons, List.flatMap_cons, List.flatMap_cons, List.flatten_append,
        List.length_append, List.length_append, ih (first + 1), List.length_map, List.length_range,
        Pattern.nnz_eq]
  exact general 0

theorem exists_of_mem_besideMap (h : some (i, k) ∈ besideMap patterns) :
    ∃ p, patterns[i]? = some p ∧ k < p.nnz := by
  rw [besideMap, List.mem_flatMap] at h
  obtain ⟨⟨p, l⟩, hp, h⟩ := h
  obtain ⟨m, hm, heq⟩ := List.mem_map.mp h
  obtain ⟨rfl, rfl⟩ := Prod.mk.injEq .. ▸ Option.some.inj heq
  exact ⟨p, List.mk_mem_zipIdx_iff_getElem?.mp hp, List.mem_range.mp hm⟩

theorem eq_stack_of_vertcat (h : Pattern.vertcat patterns = .ok p) : p = Pattern.stack patterns := by
  rw [Pattern.vertcat] at h
  split at h
  · contradiction
  · split at h
    · contradiction
    · exact (Except.ok.inj h).symm

theorem nnz_of_vertcat (h : Pattern.vertcat patterns = .ok p) :
    (stackMap (patterns.head?.elim 0 Pattern.ncols) patterns).length = p.nnz := by
  rw [length_stackMap, eq_stack_of_vertcat h]

/-- Parts side by side, where there is room for them and their row counts agree. -/
theorem beside_of_horzcat (h : Pattern.horzcat patterns = .ok p) :
    p.shape = (patterns.head?.elim 0 Pattern.nrows, (patterns.map Pattern.ncols).sum) ∧
      p.columns = patterns.flatMap Pattern.columns ∧ ∀ q ∈ patterns, q.nrows = p.nrows := by
  rw [Pattern.horzcat] at h
  split at h
  · contradiction
  · split at h
    · rename_i hrows
      rw [← Except.ok.inj h]
      exact ⟨Prod.ext rfl List.length_flatMap, rfl, hrows⟩
    · contradiction

theorem nnz_of_horzcat (h : Pattern.horzcat patterns = .ok p) :
    (besideMap patterns).length = p.nnz := by
  rw [length_besideMap, Pattern.nnz_eq, (beside_of_horzcat h).2.1]

end MatrixBuilder

end Fluxion
