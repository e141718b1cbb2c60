import Fluxion.Proofs.Pattern.Sets

/-!
# Joined parts

Parts that are joined have to agree in one count, and then no nonzero is lost: the result has as many
as the parts together. Side by side there has to be a table for the columns of all parts, and then the
row counts of all parts are compared with that of the first one.

On top of each other they are compared for each column of the result, and the result has the columns
of the first part. A first part without columns ends the comparison before it begins: whatever the
other parts are, the result has their rows, no columns and no nonzeros. `Unnoticed` names these parts;
for all others the two joins do the same.

## Main definitions

* `Pattern.Joins` — a join that is refused where parts do not fit and keeps all nonzeros where they do
* `Pattern.Unnoticed` — parts that do not fit and are not compared

## Main results

* `Pattern.nnz_stack`, `Pattern.nnz_of_horzcat` — all nonzeros are kept
* `Pattern.joins_parts` — **what the two joins accept, and what they keep**
* `Pattern.vertcat_drops_nonzero` — a nonzero that is lost unnoticed
-/

namespace Fluxion

namespace Pattern

variable {p : Pattern} {parts : List Pattern}

/-! ### Nonzeros of joined parts -/

theorem nnz_eq_sum (p : Pattern) :
    p.nnz = ((List.range p.ncols).map fun j => (p.column j).length).sum := by
  rw [nnz_eq, columns_eq_map_range, List.length_flatten, List.map_map]
  rfl

theorem length_stackColumn_cons (j offset : Nat) (part : Pattern) (rest : List Pattern) :
    (stackColumn j offset (part :: rest)).length
      = (part.column j).length + (stackColumn j (offset + part.nrows) rest).length := by
  rw [stackColumn, List.length_append, List.length_map]

/-- Column by column or part by part, the nonzeros are the same. -/
theorem sum_length_stackColumn {n : Nat} (h : ∀ part ∈ parts, part.ncols = n) (offset : Nat) :
    ((List.range n).map fun j => (stackColumn j offset parts).length).sum
      = (parts.map nnz).sum := by
  induction parts generalizing offset with
  | nil => simp [stackColumn]
  | cons part rest ih =>
    have hpart : part.ncols = n := h part List.mem_cons_self
    have hrest := ih (fun q hq => h q (List.mem_cons_of_mem part hq)) (offset + part.nrows)
    simp only [length_stackColumn_cons]
    rw [List.sum_map_add, hrest, List.map_cons, List.sum_cons, nnz_eq_sum part, hpart]

theorem columns_stack (parts : List Pattern) : (stack parts).columns
    = (List.range (parts.head?.elim 0 ncols)).map (stackColumn · 0 parts) := rfl

theorem nnz_stack (h : ∀ part ∈ parts, part.ncols = parts.head?.elim 0 ncols) :
    (stack parts).nnz = (parts.map nnz).sum := by
  rw [nnz_eq, columns_stack, List.length_flatten, List.map_map]
  exact sum_length_stackColumn h 0

/-- Where the first part has no column there is nothing to store. -/
theorem nnz_stack_of_head (h : parts.head?.elim 0 ncols = 0) : (stack parts).nnz = 0 := by
  rw [nnz_eq, columns_stack, h]
  rfl

theorem nnz_of_horzcat (h : horzcat parts = .ok p) : p.nnz = (parts.map nnz).sum := by
  have hparts : parts.map nnz = parts.map fun part => part.columns.flatten.length :=
    List.map_congr_left fun part _ => nnz_eq part
  rw [nnz_eq, (MatrixBuilder.beside_of_horzcat h).2.1, List.flatMap, List.flatten_flatten,
    List.length_flatten, List.map_map, List.map_map, hparts]
  rfl

/-! ### What is accepted -/

/-- A join of parts: where they fit there is a result, with all of their nonzeros, and where they do
not a rule is broken. -/
def Joins (fit : Prop) (rule : Precondition) (total : Nat) (outcome : Except Error Pattern) : Prop :=
  (fit → ∃ p, outcome = .ok p ∧ p.nnz = total) ∧ (¬ fit → outcome = .error (.precondition rule))

/-- The first part has no column and another part has one. -/
def Unnoticed (parts : List Pattern) : Prop :=
  parts.head?.elim 0 ncols = 0 ∧ ∃ part ∈ parts, part.ncols ≠ 0

theorem agree_of_eq_head {count : Pattern → Nat}
    (h : ∀ part ∈ parts, count part = parts.head?.elim 0 count) :
    ∀ a ∈ parts, ∀ b ∈ parts, count a = count b :=
  fun a ha b hb => (h a ha).trans (h b hb).symm

theorem joins_horzcat (hcolumns : (parts.map ncols).sum + 1 < tableLimit) :
    Joins (∀ a ∈ parts, ∀ b ∈ parts, a.nrows = b.nrows) .adjacentRows (parts.map nnz).sum
      (horzcat parts) := by
  constructor
  · intro hagree
    obtain ⟨p, hp, -, -⟩ := (gives_horzcat (eq_head_of_agree hagree)).1 hcolumns
    exact ⟨p, hp, nnz_of_horzcat hp⟩
  · intro hdiffer
    rw [horzcat, totalColumns_eq_sum, if_neg (Nat.not_le.mpr hcolumns)]
    exact dif_neg fun h => hdiffer (agree_of_eq_head h)

theorem vertcat_of_lt (hrows : (parts.map nrows).sum < countLimit) :
    vertcat parts = if 0 < parts.head?.elim 0 ncols ∧
        ∃ part ∈ parts, part.ncols ≠ parts.head?.elim 0 ncols
      then .error (.precondition .stackedColumns) else .ok (stack parts) := by
  rw [← totalRows_eq_sum] at hrows
  exact if_neg (Nat.not_le.mpr hrows)

theorem joins_vertcat (hrows : (parts.map nrows).sum < countLimit) (hnoticed : ¬ Unnoticed parts) :
    Joins (∀ a ∈ parts, ∀ b ∈ parts, a.ncols = b.ncols) .stackedColumns (parts.map nnz).sum
      (vertcat parts) := by
  rw [vertcat_of_lt hrows]
  constructor
  · intro hagree
    have hhead := eq_head_of_agree hagree
    refine ⟨stack parts, if_neg ?_, nnz_stack hhead⟩
    rintro ⟨-, part, hpart, hne⟩
    exact hne (hhead part hpart)
  · intro hdiffer
    have hmisfit : ∃ part ∈ parts, part.ncols ≠ parts.head?.elim 0 ncols := by
      by_contra hnone
      push Not at hnone
      exact hdiffer (agree_of_eq_head hnone)
    refine if_pos ⟨Nat.pos_of_ne_zero fun hzero => hnoticed ⟨hzero, ?_⟩, hmisfit⟩
    rwa [hzero] at hmisfit

/-- Nothing is compared, and nothing is left of the nonzeros. -/
theorem vertcat_of_unnoticed (hrows : (parts.map nrows).sum < countLimit) (h : Unnoticed parts) :
    ∃ p, vertcat parts = .ok p ∧ p.nnz = 0 := by
  refine ⟨stack parts, ?_, nnz_stack_of_head h.1⟩
  rw [vertcat_of_lt hrows, if_neg fun hmisfit => Nat.ne_of_gt hmisfit.1 h.1]

/-- Parts that are not compared do not fit, and are not refused. -/
theorem not_joins_of_unnoticed (hrows : (parts.map nrows).sum < countLimit) (h : Unnoticed parts) :
    ¬ Joins (∀ a ∈ parts, ∀ b ∈ parts, a.ncols = b.ncols) .stackedColumns (parts.map nnz).sum
      (vertcat parts) := by
  intro hjoins
  obtain ⟨p, hp, -⟩ := vertcat_of_unnoticed hrows h
  obtain ⟨hhead, part, hpart, hne⟩ := h
  have hdiffer : ¬ ∀ a ∈ parts, ∀ b ∈ parts, a.ncols = b.ncols := fun hagree =>
    hne ((eq_head_of_agree hagree part hpart).trans hhead)
  rw [hjoins.2 hdiffer] at hp
  contradiction

/-- **Both joins accept exactly the parts that fit and lose nothing**, the one side by side as long as
there is a table for all columns, the one on top of each other exactly if it is noticed that parts do
not fit. -/
theorem joins_parts (parts : List Pattern) :
    ((parts.map ncols).sum + 1 < tableLimit →
      Joins (∀ a ∈ parts, ∀ b ∈ parts, a.nrows = b.nrows) .adjacentRows (parts.map nnz).sum
        (horzcat parts)) ∧
    (tableLimit ≤ (parts.map ncols).sum + 1 → horzcat parts = .error .tooLarge) ∧
    ((parts.map nrows).sum < countLimit →
      (Joins (∀ a ∈ parts, ∀ b ∈ parts, a.ncols = b.ncols) .stackedColumns (parts.map nnz).sum
        (vertcat parts) ↔ ¬ Unnoticed parts) ∧
      (Unnoticed parts → ∃ p, vertcat parts = .ok p ∧ p.nnz = 0)) := by
  refine ⟨joins_horzcat, horzcat_of_large, fun hrows => ⟨⟨fun hjoins h => ?_, joins_vertcat hrows⟩,
    vertcat_of_unnoticed hrows⟩⟩
  exact not_joins_of_unnoticed hrows h hjoins

/-- A diagonal beside a column and on top of a row that is too short; a column that is given more often
than there is room for; and parts of which the first has no column. -/
theorem joins_parts_diagonal :
    ([diagonal 2, dense 2 1].map ncols).sum + 1 < tableLimit ∧
    Joins (∀ a ∈ [diagonal 2, dense 2 1], ∀ b ∈ [diagonal 2, dense 2 1], a.nrows = b.nrows)
      .adjacentRows 4 (horzcat [diagonal 2, dense 2 1]) ∧
    tableLimit ≤ ((List.replicate tableLimit scalar).map ncols).sum + 1 ∧
    horzcat (List.replicate tableLimit scalar) = .error .tooLarge ∧
    ([diagonal 2, dense 1 1].map nrows).sum < countLimit ∧ ¬ Unnoticed [diagonal 2, dense 1 1] ∧
    Joins (∀ a ∈ [diagonal 2, dense 1 1], ∀ b ∈ [diagonal 2, dense 1 1], a.ncols = b.ncols)
      .stackedColumns 3 (vertcat [diagonal 2, dense 1 1]) ∧
    ([empty 3 0, dense 1 2].map nrows).sum < countLimit ∧ Unnoticed [empty 3 0, dense 1 2] ∧
    ∃ p, vertcat [empty 3 0, dense 1 2] = .ok p ∧ p.nnz = 0 := by
  have hcompared : ¬ Unnoticed [diagonal 2, dense 1 1] := by simp [Unnoticed, diagonal, ncols]
  have hunnoticed : Unnoticed [empty 3 0, dense 1 2] := ⟨rfl, dense 1 2, by simp, by decide⟩
  have hlarge : tableLimit ≤ ((List.replicate tableLimit scalar).map ncols).sum + 1 := by
    rw [sum_ncols_replicate]
    decide
  exact ⟨by decide, (joins_parts [diagonal 2, dense 2 1]).1 (by decide), hlarge,
    (joins_parts (List.replicate tableLimit scalar)).2.1 hlarge, by decide, hcompared,
    ((joins_parts [diagonal 2, dense 1 1]).2.2 (by decide)).1.mpr hcompared, by decide, hunnoticed,
    ((joins_parts [empty 3 0, dense 1 2]).2.2 (by decide)).2 hunnoticed⟩

/-- Two parts that do not fit are stacked, and the nonzero of the second one is gone. -/
theorem vertcat_drops_nonzero :
    ([empty 1 0, dense 1 1].map nrows).sum < countLimit ∧
      (¬ ∀ a ∈ [empty 1 0, dense 1 1], ∀ b ∈ [empty 1 0, dense 1 1], a.ncols = b.ncols) ∧
      vertcat [empty 1 0, dense 1 1] = .ok (empty 2 0) ∧
      (empty 2 0).nnz ≠ ([empty 1 0, dense 1 1].map nnz).sum := by
  decide

end Pattern

end Fluxion
