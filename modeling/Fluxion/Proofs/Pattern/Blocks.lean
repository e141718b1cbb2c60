import Fluxion.Proofs.Lists
import Fluxion.Proofs.Matrix.Entries
import Fluxion.Proofs.Pattern.Maps

/-!
# Elements of combined patterns

Where a pattern that is put together from others has its positions, and which elements of the parts
they belong to. Blocks that are joined along an axis are told apart by counting: an index belongs to the
first block that it does not pass.

## Main definitions

* `along` — the element of joined blocks

## Main results

* `Pattern.mem_positions_dense`, `Pattern.mem_positions_intersection` — members
* `MatrixBuilder.forall₂_stackMap`, `MatrixBuilder.forall₂_besideMap` — **the maps of joined blocks
  lead to the elements of the blocks**
-/

namespace Fluxion

/-- The element of blocks that are joined, each given by its length and its elements. There is nothing
beyond the last one. -/
def along {V : Type} [Zero V] : List (Nat × (Nat → V)) → Nat → V
  | [], _ => 0
  | (n, x) :: rest, k => if k < n then x k else along rest (k - n)

namespace Pattern

variable {p q : Pattern} {r c : Nat}

/-! ### Members -/

@[simp] theorem mem_positions_dense {nrows ncols : Nat} :
    (r, c) ∈ (dense nrows ncols).positions ↔ r < nrows ∧ c < ncols := by
  rw [mem_positions, column, dense, List.getD_eq_getElem?_getD, List.getElem?_map]
  by_cases hc : c < ncols
  · simp [hc]
  · rw [List.getElem?_eq_none (by simpa using hc)]
    simp [hc]

theorem positions_denseColumn (n : Nat) :
    (denseColumn n).positions = (List.range n).map (·, 0) := by
  simp [denseColumn, dense, positions, List.zipIdx_cons]

theorem mem_dropWhile_lt {x : Nat} {rows : List Nat} (h : rows.Pairwise (· < ·)) :
    x ∈ rows.dropWhile (· < r) ↔ x ∈ rows ∧ r ≤ x := by
  induction rows with
  | nil => simp
  | cons s rest ih =>
    obtain ⟨hs, hrest⟩ := List.pairwise_cons.mp h
    rw [List.dropWhile_cons]
    split
    · rename_i hsr
      have hsr : s < r := by simpa using hsr
      rw [ih hrest, List.mem_cons]
      exact ⟨fun hx => ⟨.inr hx.1, hx.2⟩, fun hx => ⟨hx.1.resolve_left (by omega), hx.2⟩⟩
    · rename_i hsr
      have hsr : r ≤ s := by simpa using hsr
      refine ⟨fun hx => ⟨hx, ?_⟩, And.left⟩
      rcases List.mem_cons.mp hx with rfl | hx
      · exact hsr
      · exact Nat.le_of_lt (Nat.lt_of_le_of_lt hsr (hs x hx))

/-- In an increasing list a row is found in front of what is left after smaller ones. -/
theorem head?_dropWhile_lt {rows : List Nat} (h : rows.Pairwise (· < ·)) :
    (rows.dropWhile (· < r)).head? = some r ↔ r ∈ rows := by
  have hmem : r ∈ rows.dropWhile (· < r) ↔ r ∈ rows := by simp [mem_dropWhile_lt h]
  rw [← hmem]
  refine ⟨List.mem_of_mem_head?, fun hr => ?_⟩
  cases hlater : rows.dropWhile (· < r) with
  | nil => simp [hlater] at hr
  | cons s later =>
    have hle : r ≤ s := ((mem_dropWhile_lt h).mp (hlater ▸ List.mem_cons_self ..)).2
    have hsorted : (s :: later).Pairwise (· < ·) := hlater ▸ h.sublist (List.dropWhile_sublist _)
    rw [hlater] at hr
    rcases List.mem_cons.mp hr with rfl | hr
    · rfl
    · have := (List.pairwise_cons.mp hsorted).1 r hr
      omega

theorem mem_commonRows {x : Nat} {rows others : List Nat} (hrows : rows.Pairwise (· < ·))
    (hothers : others.Pairwise (· < ·)) :
    x ∈ commonRows rows others ↔ x ∈ rows ∧ x ∈ others := by
  induction rows generalizing others with
  | nil => simp [commonRows]
  | cons r rest ih =>
    obtain ⟨hr, hrest⟩ := List.pairwise_cons.mp hrows
    -- what is passed over lies below `r`, so no later row is lost
    have hlater := hothers.sublist (List.dropWhile_sublist (· < r))
    have hmem : x ∈ commonRows rest (others.dropWhile (· < r)) ↔ x ∈ rest ∧ x ∈ others := by
      rw [ih hrest hlater, mem_dropWhile_lt hothers]
      exact ⟨fun h => ⟨h.1, h.2.1⟩, fun h => ⟨h.1, h.2, Nat.le_of_lt (hr x h.1)⟩⟩
    rw [commonRows]
    split
    · rename_i hhead
      rw [List.mem_cons, List.mem_cons, hmem, or_and_right]
      refine or_congr_left ⟨fun h => ⟨h, ?_⟩, And.left⟩
      rw [h]
      exact (head?_dropWhile_lt hothers).mp hhead
    · rename_i hhead
      rw [hmem, List.mem_cons, or_and_right, or_iff_right]
      rintro ⟨rfl, hx⟩
      exact hhead ((head?_dropWhile_lt hothers).mpr hx)

theorem mem_positions_intersection :
    (r, c) ∈ (p.intersection q).positions ↔ (r, c) ∈ p.positions ∧ (r, c) ∈ q.positions := by
  rw [mem_positions, mem_positions, mem_positions, column, column, column, intersection]
  simp only [List.getD_eq_getElem?_getD, List.getElem?_zipWith]
  cases hp : p.columns[c]? with
  | none => simp
  | some rows =>
    cases hq : q.columns[c]? with
    | none => simp
    | some others =>
      exact mem_commonRows (p.isColumn rows (List.mem_of_getElem? hp)).1
        (q.isColumn others (List.mem_of_getElem? hq)).1

/-! ### Columns by number -/

/-- A column with the numbers of its nonzeros. -/
theorem map_fst_numberedColumn (p : Pattern) (j : Nat) :
    (p.numberedColumns.getD j []).map Prod.fst = p.column j := by
  have general : ∀ (columns : List (List Nat)) (first j : Nat),
      ((numberFrom first columns).getD j []).map Prod.fst = columns.getD j [] := by
    intro columns
    induction columns with
    | nil => simp [numberFrom]
    | cons rows rest ih =>
      intro first j
      cases j with
      | zero => exact List.zipIdx_map_fst ..
      | succ j => exact ih _ j
  exact general p.columns 0 j

theorem getElem?_of_mem_numberedColumn {j k : Nat} (h : (r, k) ∈ p.numberedColumns.getD j []) :
    p.positions[k]? = some (r, j) := by
  have hlookup : (p.numberedColumns.getD j []).lookup r = some k := by
    have hpairs := filterMap_eq_lookup (pairwise_numberedColumn p j) r id
    have hmem : k ∈ (p.numberedColumns.getD j []).filterMap
        fun x => if x.1 = r then some (id x.2) else none :=
      List.mem_filterMap.mpr ⟨(r, k), h, by simp⟩
    rw [hpairs] at hmem
    simpa using hmem
  exact find?_eq_some_iff.mp ((find?_eq_lookup p r j).trans hlookup)

end Pattern

/-! ### Joined blocks -/

namespace MatrixBuilder

variable {V : Type}

/-- An entry of a map for blocks, the first of which is number `first`: it leads to the nonzero of a
block whose element is `v`. -/
inductive BlockEntry (blocks : List (Pattern × (Nat → Nat → V))) (first : Nat) :
    Option (Nat × Nat) → V → Prop
  | mk {i k b r c} : blocks[i]? = some b → b.1.positions[k]? = some (r, c) →
      BlockEntry blocks first (some (first + i, k)) (b.2 r c)

variable {blocks : List (Pattern × (Nat → Nat → V))} {b : Pattern × (Nat → Nat → V)} {first : Nat}

theorem BlockEntry.cons {entry : Option (Nat × Nat)} {v : V}
    (h : BlockEntry blocks (first + 1) entry v) : BlockEntry (b :: blocks) first entry v := by
  obtain ⟨hi, hk⟩ := h
  rename_i i k d r c
  have hnumber : first + 1 + i = first + (i + 1) := by omega
  rw [hnumber]
  exact .mk hi hk

variable [Zero V]

/-- One column of blocks on top of each other. -/
theorem forall₂_stackColumn (blocks : List (Pattern × (Nat → Nat → V))) (j offset first : Nat) :
    List.Forall₂ (fun entry row => BlockEntry blocks first entry
        (along (blocks.map fun b => (b.1.nrows, fun r => b.2 r j)) (row - offset)))
      ((((blocks.map Prod.fst).map (·.numberedColumns.toArray)).zipIdx first).flatMap
        fun (part, p) => (part.getD j []).map fun (_, k) => some (p, k))
      (Pattern.stackColumn j offset (blocks.map Prod.fst)) := by
  induction blocks generalizing offset first with
  | nil => exact .nil
  | cons b rest ih =>
    rw [List.map_cons, List.map_cons, List.map_cons, List.zipIdx_cons, List.flatMap_cons,
      Pattern.stackColumn]
    refine List.rel_append ?_ ((forall₂_and_mem (ih (offset + b.1.nrows) (first + 1)).flip).flip.imp
      fun entry row h => ?_)
    · dsimp only
      rw [← Pattern.map_fst_numberedColumn, Pattern.getD_toArray, List.map_map]
      refine forall₂_map_same _ fun rk hrk => ?_
      have hk : b.1.positions[rk.2]? = some (rk.1, j) :=
        Pattern.getElem?_of_mem_numberedColumn (show (rk.1, rk.2) ∈ _ from hrk)
      have hlt := Pattern.row_lt_of_mem_positions (List.mem_of_getElem? hk)
      show BlockEntry (b :: rest) first (some (first, rk.2)) (along _ (rk.1 + offset - offset))
      rw [Nat.add_sub_cancel, along, if_pos hlt]
      exact .mk (i := 0) rfl hk
    · obtain ⟨hrow, hentry⟩ := h
      have hle := (Pattern.mem_stackColumn hrow).1
      have hsub : row - (offset + b.1.nrows) = row - offset - b.1.nrows := by omega
      rw [along, if_neg (by omega), ← hsub]
      exact hentry.cons

theorem zipIdx_map_range {α : Type} (f : Nat → α) (n : Nat) :
    ((List.range n).map f).zipIdx = (List.range n).map fun j => (f j, j) := by
  refine List.ext_getElem (by simp) fun j _ _ => ?_
  rw [List.getElem_zipIdx, List.getElem_map, List.getElem_map, List.getElem_range, Nat.zero_add]

/-- **The map of blocks on top of each other** leads to the elements of the blocks. -/
theorem forall₂_stackMap (blocks : List (Pattern × (Nat → Nat → V))) :
    List.Forall₂ (fun entry ij => BlockEntry blocks 0 entry
        (along (blocks.map fun b => (b.1.nrows, fun r => b.2 r ij.2)) ij.1))
      (stackMap ((blocks.map Prod.fst).head?.elim 0 Pattern.ncols) (blocks.map Prod.fst))
      (Pattern.stack (blocks.map Prod.fst)).positions := by
  have hpositions : (Pattern.stack (blocks.map Prod.fst)).positions
      = (List.range ((blocks.map Prod.fst).head?.elim 0 Pattern.ncols)).flatMap fun j =>
        (Pattern.stackColumn j 0 (blocks.map Prod.fst)).map (·, j) := by
    rw [Pattern.positions, Pattern.stack, zipIdx_map_range, List.flatMap_map]
  rw [hpositions, stackMap]
  refine forall₂_flatMap_same _ fun j _ => ?_
  rw [List.forall₂_map_right_iff]
  exact forall₂_stackColumn blocks j 0 0

theorem eq_map_range_positions (p : Pattern) :
    p.positions = (List.range p.nnz).map fun k => p.positions.getD k (0, 0) := by
  refine List.ext_getElem (by simp [Pattern.nnz]) fun k hk _ => ?_
  rw [List.getElem_map, List.getElem_range, List.getD_eq_getElem _ _ hk]

/-- Positions of columns the first of which is column `offset`. -/
theorem flatMap_zipIdx_columns (p : Pattern) (offset : Nat) :
    ((p.columns.zipIdx offset).flatMap fun (rows, j) => rows.map (·, j))
      = p.positions.map fun ij => (ij.1, offset + ij.2) := by
  rw [List.zipIdx_eq_map_add, Pattern.positions, List.flatMap_map, List.map_flatMap]
  refine List.flatMap_congr fun x _ => ?_
  rw [List.map_map]
  rfl

/-- Columns of blocks side by side. -/
theorem forall₂_besideColumns (blocks : List (Pattern × (Nat → Nat → V))) (offset first : Nat) :
    List.Forall₂ (fun entry ij => BlockEntry blocks first entry
        (along (blocks.map fun b => (b.1.ncols, fun c => b.2 ij.1 c)) (ij.2 - offset)))
      (((blocks.map Prod.fst).zipIdx first).flatMap fun (s, p) =>
        (List.range s.nnz).map fun k => some (p, k))
      ((((blocks.map Prod.fst).flatMap Pattern.columns).zipIdx offset).flatMap
        fun (rows, j) => rows.map (·, j)) := by
  induction blocks generalizing offset first with
  | nil => exact .nil
  | cons b rest ih =>
    rw [List.map_cons, List.zipIdx_cons, List.flatMap_cons, List.flatMap_cons,
      List.zipIdx_append, List.flatMap_append]
    refine List.rel_append ?_ ((forall₂_and_mem
      (ih (offset + b.1.columns.length) (first + 1)).flip).flip.imp fun entry ij h => ?_)
    · dsimp only
      rw [flatMap_zipIdx_columns, eq_map_range_positions, List.map_map]
      refine forall₂_map_same _ fun k hk => ?_
      obtain ⟨ij, hij⟩ : ∃ ij, b.1.positions[k]? = some ij :=
        ⟨_, List.getElem?_eq_getElem (List.mem_range.mp hk)⟩
      have hlt := Pattern.column_lt_of_mem_positions (List.mem_of_getElem? hij)
      simp only [Function.comp, List.getD_eq_getElem?_getD, hij, Option.getD_some, List.map_cons]
      rw [Nat.add_sub_cancel_left, along, if_pos hlt]
      exact .mk (i := 0) rfl hij
    · obtain ⟨hij, hentry⟩ := h
      have hle := (Pattern.mem_flatMap_zipIdx.mp hij).1
      have hsub : ij.2 - (offset + b.1.columns.length) = ij.2 - offset - b.1.ncols := by
        rw [Pattern.ncols]
        omega
      rw [List.map_cons, along, if_neg (by rw [Pattern.ncols]; omega), ← hsub]
      exact hentry.cons

/-- **The map of blocks side by side** leads to the elements of the blocks. -/
theorem forall₂_besideMap {p : Pattern} (blocks : List (Pattern × (Nat → Nat → V)))
    (hp : Pattern.horzcat (blocks.map Prod.fst) = .ok p) :
    List.Forall₂ (fun entry ij => BlockEntry blocks 0 entry
        (along (blocks.map fun b => (b.1.ncols, fun c => b.2 ij.1 c)) ij.2))
      (besideMap (blocks.map Prod.fst)) p.positions := by
  rw [Pattern.positions, (beside_of_horzcat hp).2.1]
  exact forall₂_besideColumns blocks 0 0

end MatrixBuilder

end Fluxion
