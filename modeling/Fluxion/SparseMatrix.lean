import Fluxion.Binary64
import Fluxion.Pattern.Algebra

/-!
# Sparse matrices

A sparse matrix is a pattern with one value for each of its nonzeros, in storage order. The values
may be anything: numbers, or expressions of a graph. That the counts agree is part of the type.

## Main definitions

* `SparseMatrix`: the type; `SparseMatrix.ofValues` checks the count, `SparseMatrix.tabulate` and
  `SparseMatrix.fitted` need no check.
* `SparseMatrix.get?`: the value at a position, if one is stored.
* `SparseMatrix.map`, `SparseMatrix.project`, `SparseMatrix.toDense`; `SparseMatrix.toDenseOf` checks
  the size.
-/

namespace Fluxion

instance : EntrySize Binary64 := ⟨8⟩

/-- A pattern with a value for each nonzero. -/
structure SparseMatrix (α : Type) where
  pattern : Pattern
  values : List α
  length_values : values.length = pattern.nnz
deriving DecidableEq

namespace SparseMatrix

variable {α β : Type}

/-- The values of a pattern's nonzeros by their number. -/
def tabulate (pattern : Pattern) (value : Nat → α) : SparseMatrix α where
  pattern := pattern
  values := (List.range pattern.nnz).map value
  length_values := by simp

/-- The values of a list in order. Those that are too many are left out, and `fill` stands for those
that are missing. -/
def fitted (pattern : Pattern) (values : List α) (fill : α) : SparseMatrix α where
  pattern := pattern
  values := values.take pattern.nnz ++ List.replicate (pattern.nnz - values.length) fill
  length_values := by simp; omega

theorem values_fitted {pattern : Pattern} {values : List α} {fill : α}
    (h : values.length = pattern.nnz) : (fitted pattern values fill).values = values := by
  simp [fitted, h.symm]

/-- A pattern and its values, if there are as many values as nonzeros. -/
def ofValues (pattern : Pattern) (values : List α) : Except Error (SparseMatrix α) :=
  if h : values.length = pattern.nnz then .ok ⟨pattern, values, h⟩
  else .error (.precondition .valueCount)

/-- A dense matrix, given column after column. Its size is checked before its values are counted. -/
def dense (nrows ncols : Nat) (values : List α) : Except Error (SparseMatrix α) :=
  (Pattern.denseOf nrows ncols).bind (ofValues · values)

/-- A dense column. -/
def column (values : List α) : SparseMatrix α where
  pattern := Pattern.denseColumn values.length
  values := values
  length_values := by simp [Pattern.denseColumn, Pattern.dense, Pattern.nnz, Pattern.positions]

/-- One row, one column. -/
def scalar (value : α) : SparseMatrix α where
  pattern := Pattern.scalar
  values := [value]
  length_values := rfl

/-- The row count and the column count. -/
def shape (m : SparseMatrix α) : Shape := m.pattern.shape

/-- The number of stored values. -/
def nnz (m : SparseMatrix α) : Nat := m.values.length

/-- The value at a position, if one is stored there. -/
def get? (m : SparseMatrix α) (r c : Nat) : Option α :=
  (m.pattern.find? r c).bind (m.values[·]?)

/-- The value at a position, `zero` where none is stored. -/
def getD (m : SparseMatrix α) (r c : Nat) (zero : α) : α := (m.get? r c).getD zero

/-- Apply a function to every stored value. -/
def map (f : α → β) (m : SparseMatrix α) : SparseMatrix β where
  pattern := m.pattern
  values := m.values.map f
  length_values := by rw [List.length_map, m.length_values]

/-- All elements, column after column, with `zero` where none is stored. -/
def toDense (m : SparseMatrix α) (zero : α) : List α :=
  ((m.pattern.linearIndices.zip m.values).foldl
    (fun data (place, value) => data.setIfInBounds place value)
    (Array.replicate m.pattern.numel zero)).toList

/-- All elements, if they can be counted and fit into a table. -/
def toDenseOf [EntrySize α] (m : SparseMatrix α) (zero : α) : Except Error (List α) :=
  if m.pattern.numel < countLimit ∧ m.pattern.numel * EntrySize.bytes α < byteLimit then
    .ok (m.toDense zero)
  else .error .tooLarge

/-- The matrix on another pattern: positions that the target lacks are dropped, and those that it
adds hold `zero`. -/
def onPattern (m : SparseMatrix α) (target : Pattern) (zero : α) : SparseMatrix α where
  pattern := target
  values :=
    let values := m.values.toArray
    (m.pattern.locate target).map fun source => (source.bind (values[·]?)).getD zero
  length_values := by simp

/-- `SparseMatrix.onPattern` for a target of the same shape. -/
def project (m : SparseMatrix α) (target : Pattern) (zero : α) : Except Error (SparseMatrix α) :=
  if m.shape = target.shape then .ok (m.onPattern target zero)
  else .error (.precondition .projectionShape)

end SparseMatrix

end Fluxion
