import Fluxion.Proofs.Jacobian.Scalar

/-!
# The pattern of an assembled Jacobian

A Jacobian is found on a pattern that counts nonzeros: a row for each nonzero of the output, a column
for each nonzero of the input. Unless it is asked for in that form, its pattern is built anew from the
places of these nonzeros among all elements, while the values that belong to it are left as they are.
This is right because places increase with the numbers of nonzeros, in the output and in the input, so
the entries are met in the same order in both patterns.

The new pattern has a column for each element of the input, stored or not. Their starts need a table,
and the Jacobian is refused if they do not fit into one, however few of the columns have entries.

## Main results

* `Pattern.assembled_keepsOrder` — **the assembled pattern keeps storage order**
* `Pattern.assembledOf_columns_tooLarge` — an input whose elements can be counted may be too large
-/

namespace Fluxion.Pattern

variable {p output input : Pattern}

/-- The place of a nonzero is the number of its element, counted down the columns. -/
theorem place_of_getElem? {m : Pattern} {k r c : Nat} (h : m.positions[k]? = some (r, c)) :
    m.place false k = r + c * m.nrows := by
  rw [place, if_neg Bool.false_ne_true, List.getD_eq_getElem?_getD, linearIndices,
    List.getElem?_map, h]
  rfl

theorem assembledOf_eq (hout : output.numel < countLimit) (hin : input.numel + 1 < tableLimit) :
    p.assembledOf output input false = .ok (p.assembled output input false) :=
  if_pos (.inr ⟨hout, hin⟩)

theorem shape_assembled (p output input : Pattern) :
    (p.assembled output input false).shape = (output.numel, input.numel) := by
  rw [assembled, if_neg Bool.false_ne_true, shape, nrows_ofPositions, ncols_ofPositions]

/-- The entry of a number stands where the nonzeros stand that its row and its column count. -/
theorem getElem?_positions_assembled (hrows : p.nrows = output.nnz) (hcols : p.ncols = input.nnz)
    {k i j : Nat} (hk : p.positions[k]? = some (i, j)) :
    ∃ r c s t, output.positions[i]? = some (r, c) ∧ input.positions[j]? = some (s, t) ∧
      (p.assembled output input false).positions[k]?
        = some (r + c * output.nrows, s + t * input.nrows) := by
  have hmem : (i, j) ∈ p.positions := List.mem_of_getElem? hk
  obtain ⟨⟨r, c⟩, hi⟩ := exists_position (hrows ▸ row_lt_of_mem_positions hmem)
  obtain ⟨⟨s, t⟩, hj⟩ := exists_position (hcols ▸ column_lt_of_mem_positions hmem)
  refine ⟨r, c, s, t, hi, hj, ?_⟩
  rw [positions_assembled_place hrows hcols, List.getElem?_map, hk, ← place_of_getElem? hi,
    ← place_of_getElem? hj]
  rfl

/-- **The assembled pattern keeps storage order.** If the elements of the output can be counted and the
starts of as many columns as the input has elements fit into a table, the pattern is made. It has as
many entries as the pattern by nonzeros, and each one stands where it should. So values in the order of
the one are found at their places in the other. If the starts do not fit, there is no such pattern. -/
theorem assembled_keepsOrder (hrows : p.nrows = output.nnz) (hcols : p.ncols = input.nnz)
    (hout : output.numel < countLimit) :
    (input.numel + 1 < tableLimit →
      ∃ q, p.assembledOf output input false = .ok q ∧ q.shape = (output.numel, input.numel) ∧
        q.nnz = p.nnz ∧
        (∀ k i j : Nat, p.positions[k]? = some (i, j) →
          ∃ r c s t, output.positions[i]? = some (r, c) ∧ input.positions[j]? = some (s, t) ∧
            q.positions[k]? = some (r + c * output.nrows, s + t * input.nrows)) ∧
        ∀ (α : Type) (values : List α) (hp : values.length = p.nnz) (hq : values.length = q.nnz)
          (i j r c s t : Nat), output.positions[i]? = some (r, c) →
          input.positions[j]? = some (s, t) →
          (⟨q, values, hq⟩ : SparseMatrix α).get? (r + c * output.nrows) (s + t * input.nrows)
            = (⟨p, values, hp⟩ : SparseMatrix α).get? i j) ∧
    (tableLimit ≤ input.numel + 1 → p.assembledOf output input false = .error .tooLarge) := by
  refine ⟨fun hin => ?_, fun hlarge => ?_⟩
  · refine ⟨_, assembledOf_eq hout hin, shape_assembled p output input, nnz_assembled hrows hcols,
      fun k i j hk => getElem?_positions_assembled hrows hcols hk, ?_⟩
    intro α values hp hq i j r c s t hi hj
    have hfind : (p.assembled output input false).find? (output.place false i) (input.place false j)
        = p.find? i j :=
      find?_assembled hrows hcols (lt_nnz_of_position hi) (lt_nnz_of_position hj)
    rw [place_of_getElem? hi, place_of_getElem? hj] at hfind
    rw [SparseMatrix.get?, SparseMatrix.get?, hfind]
  · refine if_neg ?_
    rintro (hcompact | ⟨-, hin⟩)
    · cases hcompact
    · exact absurd hin (Nat.not_lt.mpr hlarge)

/-- Both nonzeros of a diagonal depend on the one element of a column: their derivatives stand in the
first and in the last of four rows. -/
theorem assembled_keepsOrder_diagonal :
    (dense 2 1).nrows = (diagonal 2).nnz ∧ (dense 2 1).ncols = (denseColumn 1).nnz ∧
      (diagonal 2).numel < countLimit ∧ (denseColumn 1).numel + 1 < tableLimit ∧
      ∃ q, (dense 2 1).assembledOf (diagonal 2) (denseColumn 1) false = .ok q ∧ q.shape = (4, 1) ∧
        q.positions = [(0, 0), (3, 0)] := by
  have hrows : (dense 2 1).nrows = (diagonal 2).nnz := rfl
  have hcols : (dense 2 1).ncols = (denseColumn 1).nnz := rfl
  have hout : (diagonal 2).numel < countLimit := by decide
  have hin : (denseColumn 1).numel + 1 < tableLimit := by decide
  obtain ⟨q, hq, hshape, hnnz, hplaces, -⟩ := (assembled_keepsOrder hrows hcols hout).1 hin
  refine ⟨hrows, hcols, hout, hin, q, hq, hshape, List.ext_getElem? fun k => ?_⟩
  match k with
  | 0 =>
    obtain ⟨r, c, s, t, hi, hj, hget⟩ := hplaces 0 0 0 rfl
    cases hi
    cases hj
    exact hget
  | 1 =>
    obtain ⟨r, c, s, t, hi, hj, hget⟩ := hplaces 1 1 0 rfl
    cases hi
    cases hj
    exact hget
  | k + 2 =>
    have hlength : q.positions.length = 2 := hnnz
    rw [List.getElem?_eq_none (by omega)]
    rfl

/-- A column can have as many elements as can be counted and one nonzero among them, and yet the
derivative in it has more columns than there are starts in a table. -/
theorem assembledOf_columns_tooLarge :
    scalar.nrows = scalar.nnz ∧ scalar.ncols = (ofPositions (tableLimit - 1) 1 [(0, 0)]).nnz ∧
      scalar.numel < countLimit ∧ (ofPositions (tableLimit - 1) 1 [(0, 0)]).numel < countLimit ∧
      scalar.assembledOf scalar (ofPositions (tableLimit - 1) 1 [(0, 0)]) false
        = .error .tooLarge := by
  refine ⟨rfl, by decide, by decide, by decide, if_neg (by decide)⟩

end Fluxion.Pattern
