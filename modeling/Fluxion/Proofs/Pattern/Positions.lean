import Fluxion.Pattern.Algebra
import Fluxion.SparseMatrix
import Fluxion.Sweep.Plan
import Mathlib.Data.List.GetD
import Mathlib.Data.List.Sort

/-!
# Patterns as sets of positions

A pattern is the set of its positions: storage order is an order of positions, the positions of a
pattern are listed in it, and a list with the same members in the same order is that list. So what
an operation does to a pattern is said by membership alone, and the numbers of the nonzeros follow.

Moving the rows and columns of a pattern to the places of the nonzeros of two others keeps storage
order, since these places increase. This is why the values of a Jacobian can be put on the larger
pattern as they are.

## Main definitions

* `Pattern.Before` — storage order of positions

## Main results

* `Pattern.mem_positions`, `Pattern.pairwise_positions` — positions are members in storage order
* `Pattern.find?_eq_some_iff`, `Pattern.find?_eq_none_iff` — numbers of positions
* `Pattern.mem_positions_ofPositions`, `Pattern.mem_positions_tabulate`,
  `Pattern.mem_positions_transpose`, `Pattern.mem_positions_union` — members
* `Pattern.positions_assembled` — **the assembled pattern keeps storage order**
-/

namespace Fluxion

namespace Pattern

variable {p q : Pattern} {r c k : Nat}

/-! ### Storage order -/

/-- Column by column, and rows increase. -/
def Before (x y : Nat × Nat) : Prop := x.2 < y.2 ∨ x.2 = y.2 ∧ x.1 < y.1

instance : Std.Irrefl Before where
  irrefl x := by
    rintro (h | ⟨-, h⟩)
    · exact Nat.lt_irrefl _ h
    · exact Nat.lt_irrefl _ h

instance : Std.Antisymm Before where
  antisymm x y hxy hyx := by
    rw [Before] at hxy hyx
    omega

theorem mem_flatMap_zipIdx {columns : List (List Nat)} {j : Nat} :
    (r, c) ∈ ((columns.zipIdx j).flatMap fun (rows, j) => rows.map (·, j))
      ↔ j ≤ c ∧ r ∈ columns.getD (c - j) [] := by
  simp only [List.mem_flatMap, List.mem_map, Prod.exists, Prod.mk.injEq,
    List.mk_mem_zipIdx_iff_le_and_getElem?_sub]
  constructor
  · rintro ⟨rows, i, ⟨hle, hget⟩, s, hs, rfl, rfl⟩
    refine ⟨hle, ?_⟩
    rw [List.getD_eq_getElem?_getD, hget]
    exact hs
  · rintro ⟨hle, hr⟩
    rw [List.getD_eq_getElem?_getD] at hr
    rcases hget : columns[c - j]? with _ | rows
    · simp [hget] at hr
    · exact ⟨rows, c, ⟨hle, hget⟩, r, by simpa [hget] using hr, rfl, rfl⟩

theorem mem_positions : (r, c) ∈ p.positions ↔ r ∈ p.column c := by
  rw [positions, mem_flatMap_zipIdx, column, Nat.sub_zero]
  simp

theorem exists_position (hk : k < p.nnz) : ∃ rc, p.positions[k]? = some rc :=
  ⟨_, List.getElem?_eq_getElem hk⟩

theorem lt_nnz_of_position {rc : Nat × Nat} (h : p.positions[k]? = some rc) : k < p.nnz :=
  (List.getElem?_eq_some_iff.mp h).1

theorem row_lt_of_mem_positions (h : (r, c) ∈ p.positions) : r < p.nrows :=
  (p.column_isColumn c).2 r (mem_positions.mp h)

theorem column_lt_of_mem_positions (h : (r, c) ∈ p.positions) : c < p.ncols := by
  rw [mem_positions, column] at h
  by_contra hle
  rw [List.getD_eq_default _ _ (Nat.le_of_not_lt hle)] at h
  exact absurd h List.not_mem_nil

theorem pairwise_flatMap_zipIdx {columns : List (List Nat)}
    (h : ∀ rows ∈ columns, rows.Pairwise (· < ·)) (j : Nat) :
    ((columns.zipIdx j).flatMap fun (rows, j) => rows.map (·, j)).Pairwise Before := by
  induction columns generalizing j with
  | nil => exact .nil
  | cons rows rest ih =>
    rw [List.zipIdx_cons, List.flatMap_cons, List.pairwise_append]
    refine ⟨?_, ih (fun x hx => h x (List.mem_cons_of_mem rows hx)) (j + 1), ?_⟩
    · exact (h rows (by simp)).map _ fun a b hab => .inr ⟨rfl, hab⟩
    · rintro ⟨r, c⟩ hx ⟨r', c'⟩ hy
      obtain ⟨_, -, heq⟩ := List.mem_map.mp hx
      have hc : j = c := congrArg Prod.snd heq
      have hle := (mem_flatMap_zipIdx.mp hy).1
      exact .inl (by show c < c'; omega)

/-- The positions of a pattern are in storage order. -/
theorem pairwise_positions (p : Pattern) : p.positions.Pairwise Before :=
  pairwise_flatMap_zipIdx (fun rows h => (p.isColumn rows h).1) 0

theorem nodup_positions (p : Pattern) : p.positions.Nodup := p.pairwise_positions.nodup

/-- A list in storage order with the members of a pattern lists its positions. -/
theorem positions_eq {l : List (Nat × Nat)} (hl : l.Pairwise Before)
    (hmem : ∀ r c, (r, c) ∈ p.positions ↔ (r, c) ∈ l) : p.positions = l :=
  p.pairwise_positions.eq_of_mem_iff hl fun x => hmem x.1 x.2

/-! ### Numbers of positions -/

theorem find?_eq_some_iff : p.find? r c = some k ↔ p.positions[k]? = some (r, c) := by
  rw [find?, List.idxOf?, List.findIdx?_eq_some_iff_getElem]
  constructor
  · rintro ⟨hk, heq, -⟩
    rw [List.getElem?_eq_getElem hk, beq_iff_eq.mp heq]
  · intro hk
    obtain ⟨hlt, heq⟩ := List.getElem?_eq_some_iff.mp hk
    refine ⟨hlt, by rw [heq]; exact beq_self_eq_true _, fun j hj => ?_⟩
    rw [Bool.not_eq_true, beq_eq_false_iff_ne]
    intro hjk
    have := p.nodup_positions.getElem_inj_iff.mp (hjk.trans heq.symm)
    omega

theorem find?_eq_none_iff : p.find? r c = none ↔ (r, c) ∉ p.positions := by
  rw [find?, List.idxOf?, List.findIdx?_eq_none_iff]
  constructor
  · intro h hmem
    simpa using h _ hmem
  · intro h x hx
    rw [beq_eq_false_iff_ne]
    rintro rfl
    exact h hx

/-! ### Members -/

theorem mem_enter {columns : Array (List Nat)} {i j : Nat} (hc : c < columns.size) :
    r ∈ (enter columns i j).getD c [] ↔ r = i ∧ c = j ∨ r ∈ columns.getD c [] := by
  have hget : columns[c]? = some columns[c] := Array.getElem?_eq_getElem hc
  rw [enter, Array.getD_eq_getD_getElem?, Array.getD_eq_getD_getElem?, Array.getElem?_modify, hget]
  by_cases hj : j = c
  · rw [if_pos hj]
    simp [hj]
  · rw [if_neg hj]
    have : ¬ c = j := fun h => hj h.symm
    simp [this]

theorem mem_enterAll {nrows ncols : Nat} {entries : List (Nat × Nat)} (hc : c < ncols) :
    r ∈ (enterAll nrows ncols entries).getD c [] ↔ r < nrows ∧ (r, c) ∈ entries := by
  induction entries with
  | nil => simp [enterAll, Array.getD_eq_getD_getElem?, hc]
  | cons entry rest ih =>
    obtain ⟨i, j⟩ := entry
    rw [enterAll_cons, List.mem_cons, Prod.mk.injEq]
    split
    · rw [mem_enter (by rwa [size_enterAll]), ih]
      constructor
      · rintro (⟨rfl, rfl⟩ | ⟨hr, hmem⟩)
        · exact ⟨by assumption, .inl ⟨rfl, rfl⟩⟩
        · exact ⟨hr, .inr hmem⟩
      · rintro ⟨hr, h | hmem⟩
        · exact .inl h
        · exact .inr ⟨hr, hmem⟩
    · rw [ih]
      constructor
      · rintro ⟨hr, hmem⟩
        exact ⟨hr, .inr hmem⟩
      · rintro ⟨hr, ⟨rfl, rfl⟩ | hmem⟩
        · contradiction
        · exact ⟨hr, hmem⟩

@[simp] theorem mem_positions_ofPositions {nrows ncols : Nat} {entries : List (Nat × Nat)} :
    (r, c) ∈ (ofPositions nrows ncols entries).positions
      ↔ r < nrows ∧ c < ncols ∧ (r, c) ∈ entries := by
  rw [mem_positions, column, show (ofPositions nrows ncols entries).columns
    = (enterAll nrows ncols entries).toList from rfl, List.getD_eq_getElem?_getD,
    Array.getElem?_toList, ← Array.getD_eq_getD_getElem?]
  by_cases hc : c < ncols
  · rw [mem_enterAll hc]
    simp [hc]
  · simp [Array.getD_eq_getD_getElem?, hc]

@[simp] theorem mem_positions_tabulate {nrows ncols : Nat} {keep : Nat → Nat → Bool} :
    (r, c) ∈ (tabulate nrows ncols keep).positions ↔ r < nrows ∧ c < ncols ∧ keep r c = true := by
  rw [mem_positions, column, tabulate, List.getD_eq_getElem?_getD, List.getElem?_map]
  by_cases hc : c < ncols
  · simp [hc]
  · rw [List.getElem?_eq_none (by simpa using hc)]
    simp [hc]

@[simp] theorem mem_positions_transpose : (r, c) ∈ p.transpose.positions ↔ (c, r) ∈ p.positions := by
  rw [transpose, mem_positions_ofPositions]
  constructor
  · rintro ⟨-, -, h⟩
    obtain ⟨x, hx, heq⟩ := List.mem_map.mp h
    obtain ⟨rfl, rfl⟩ := Prod.mk.injEq .. ▸ heq
    exact hx
  · intro h
    exact ⟨column_lt_of_mem_positions h, row_lt_of_mem_positions h,
      List.mem_map.mpr ⟨(c, r), h, rfl⟩⟩

theorem mem_positions_union (h : p.shape = q.shape) :
    (r, c) ∈ (p.union q h).positions ↔ (r, c) ∈ p.positions ∨ (r, c) ∈ q.positions := by
  have hcols : p.columns.length = q.columns.length := congrArg Prod.snd h
  rw [mem_positions, mem_positions, mem_positions, column, column, column, union]
  simp only [List.getD_eq_getElem?_getD, List.getElem?_zipWith]
  by_cases hc : c < p.columns.length
  · rw [List.getElem?_eq_getElem hc, List.getElem?_eq_getElem (hcols ▸ hc)]
    exact mem_mergeRows (q.isColumn _ (List.getElem_mem _)).1
  · rw [List.getElem?_eq_none (Nat.le_of_not_lt hc),
      List.getElem?_eq_none (hcols ▸ Nat.le_of_not_lt hc)]
    simp

theorem mergeRows_self {rows : List Nat} (h : rows.Pairwise (· < ·)) :
    mergeRows rows rows = rows :=
  (pairwise_mergeRows h h).eq_of_mem_iff h fun _ => by rw [mem_mergeRows h, or_self]

theorem union_self (p : Pattern) (h : p.shape = p.shape) : p.union p h = p := by
  have hcolumns : List.zipWith mergeRows p.columns p.columns = p.columns := by
    rw [List.zipWith_self]
    exact (List.map_congr_left fun rows hrows => mergeRows_self (p.isColumn rows hrows).1).trans
      (List.map_id _)
  rw [Pattern.mk.injEq]
  exact ⟨rfl, hcolumns⟩

/-- The members of column `j` are the rows that are stored in it. -/
theorem mem_columns_getD {i j : Nat} : i ∈ p.columns.toArray.getD j [] ↔ (i, j) ∈ p.positions := by
  rw [mem_positions, column, Array.getD_eq_getD_getElem?, List.getD_eq_getElem?_getD,
    List.getElem?_toArray]

/-! ### Places of nonzeros -/

/-- The places of the nonzeros among all elements increase. -/
theorem pairwise_linearIndices (p : Pattern) : p.linearIndices.Pairwise (· < ·) := by
  rw [linearIndices, List.pairwise_map]
  refine p.pairwise_positions.imp_of_mem ?_
  rintro ⟨r, c⟩ ⟨r', c'⟩ hx - hbefore
  have hr := row_lt_of_mem_positions hx
  show r + c * p.nrows < r' + c' * p.nrows
  rcases hbefore with hc | ⟨hc, hlt⟩
  · have : (c + 1) * p.nrows ≤ c' * p.nrows := Nat.mul_le_mul_right _ hc
    rw [Nat.succ_mul] at this
    omega
  · have hcc : c = c' := hc
    rw [hcc]
    exact Nat.add_lt_add_right hlt _

theorem place_lt_numel {r c : Nat} (hr : r < p.nrows) (hc : c < p.ncols) :
    r + c * p.nrows < p.numel := by
  rw [numel, Nat.mul_comm p.nrows]
  have : (c + 1) * p.nrows ≤ p.ncols * p.nrows := Nat.mul_le_mul_right _ hc
  rw [Nat.succ_mul] at this
  omega

theorem lt_numel_of_mem_linearIndices {x : Nat} (h : x ∈ p.linearIndices) : x < p.numel := by
  obtain ⟨⟨r, c⟩, hmem, rfl⟩ := List.mem_map.mp h
  exact place_lt_numel (row_lt_of_mem_positions hmem) (column_lt_of_mem_positions hmem)

@[simp] theorem length_linearIndices (p : Pattern) : p.linearIndices.length = p.nnz :=
  List.length_map ..

theorem getD_linearIndices_lt_getD {i j : Nat} (hij : i < j) (hj : j < p.nnz) :
    p.linearIndices.getD i 0 < p.linearIndices.getD j 0 := by
  rw [← length_linearIndices] at hj
  rw [List.getD_eq_getElem _ _ hj, List.getD_eq_getElem _ _ (Nat.lt_trans hij hj)]
  exact List.pairwise_iff_getElem.mp p.pairwise_linearIndices i j _ _ hij

theorem getD_linearIndices_lt_numel {i : Nat} (hi : i < p.nnz) :
    p.linearIndices.getD i 0 < p.numel := by
  rw [List.getD_eq_getElem _ _ (by rwa [length_linearIndices])]
  exact lt_numel_of_mem_linearIndices (List.getElem_mem _)

theorem getD_toArray {α : Type} (l : List α) (i : Nat) (d : α) : l.toArray.getD i d = l.getD i d := by
  rw [Array.getD_eq_getD_getElem?, List.getD_eq_getElem?_getD, List.getElem?_toArray]

/-- **The assembled pattern keeps storage order.** Its nonzeros are those of the compact one, moved
to the places of the nonzeros that their rows and columns count. -/
theorem positions_assembled {output input : Pattern} (hrows : p.nrows ≤ output.nnz)
    (hcols : p.ncols ≤ input.nnz) :
    (p.assembled output input false).positions
      = p.positions.map fun (i, j) =>
          (output.linearIndices.getD i 0, input.linearIndices.getD j 0) := by
  refine positions_eq ?_ fun r c => ?_
  · rw [List.pairwise_map]
    refine p.pairwise_positions.imp_of_mem ?_
    rintro ⟨i, j⟩ ⟨i', j'⟩ - hy hbefore
    have hi' := Nat.lt_of_lt_of_le (row_lt_of_mem_positions hy) hrows
    have hj' := Nat.lt_of_lt_of_le (column_lt_of_mem_positions hy) hcols
    rcases hbefore with hj | ⟨hj, hi⟩
    · exact .inl (getD_linearIndices_lt_getD hj hj')
    · obtain rfl : j = j' := hj
      exact .inr ⟨rfl, getD_linearIndices_lt_getD hi hi'⟩
  · rw [assembled, if_neg Bool.false_ne_true, mem_positions_ofPositions]
    simp only [getD_toArray]
    constructor
    · exact fun h => h.2.2
    · intro h
      obtain ⟨⟨i, j⟩, hmem, heq⟩ := List.mem_map.mp h
      obtain ⟨rfl, rfl⟩ := Prod.mk.injEq .. ▸ heq
      refine ⟨getD_linearIndices_lt_numel ?_, getD_linearIndices_lt_numel ?_, h⟩
      · exact Nat.lt_of_lt_of_le (row_lt_of_mem_positions hmem) hrows
      · exact Nat.lt_of_lt_of_le (column_lt_of_mem_positions hmem) hcols

end Pattern

end Fluxion
