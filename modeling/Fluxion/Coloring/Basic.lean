import Fluxion.Pattern.Algebra

/-!
# Colorings of columns

A derivative with a known pattern needs fewer sweeps than it has columns when columns that never
meet in a row are seeded together. A coloring assigns a color to each column; the columns of one
color are seeded by one sweep.

Colorings are built greedily: columns are taken in order, and each gets the smallest color that its
earlier neighbors do not forbid. The rule that forbids is a parameter, so this module has the rule
for columns that share a row, and `Fluxion.Coloring.Star` the one for symmetric patterns.

## Main definitions

* `Coloring`: colors of columns, all below the number of colors.
* `Coloring.groups`: the columns of each color.
* `Coloring.identity`: one color for each column.
* `Coloring.greedy`: the greedy construction, `Coloring.column` its use on rows.
* `Coloring.identityOf`, `Coloring.columnOf`: the same with a check of sizes.

## Main statements

* `Coloring.firstFree_notMem`: a color that was in use before is only taken if it is not forbidden.
-/

namespace Fluxion

/-- A color for each column. -/
structure Coloring where
  colors : Array Nat
  /-- The number of colors. -/
  count : Nat
  below : ∀ c ∈ colors, c < count
deriving DecidableEq, Repr

namespace Coloring

/-- One color for each of `n` columns. -/
def identity (n : Nat) : Coloring where
  colors := Array.range n
  count := n
  below := fun _ h => Array.mem_range.mp h

/-- One color for each column, if the colors fit into a table. -/
def identityOf (n : Nat) : Except Error Coloring :=
  if n < tableLimit then .ok (identity n) else .error .tooLarge

/-- The color of column `j`. -/
def color? (coloring : Coloring) (j : Nat) : Option Nat := coloring.colors[j]?

/-- The columns of each color, in order. -/
def groups (coloring : Coloring) : List (List Nat) :=
  (buckets coloring.count coloring.colors.toList.zipIdx).toList

/-- The smallest color that is not forbidden among the first `count`, or a new one. -/
def firstFree (count : Nat) (forbidden : List Nat) : Nat :=
  (marks count forbidden).toList.idxOf false

theorem firstFree_le (count : Nat) (forbidden : List Nat) : firstFree count forbidden ≤ count := by
  have := List.idxOf_le_length (a := false) (l := (marks count forbidden).toList)
  simpa [firstFree] using this

theorem firstFree_notMem {count : Nat} {forbidden : List Nat}
    (h : firstFree count forbidden < count) : firstFree count forbidden ∉ forbidden := by
  have hlt : (marks count forbidden).toList.idxOf false < (marks count forbidden).toList.length := by
    rw [Array.length_toList, size_marks]
    exact h
  have hfalse : (marks count forbidden)[firstFree count forbidden]? = some false := by
    rw [← Array.getElem?_toList, firstFree, List.getElem?_eq_getElem hlt, List.getElem_idxOf hlt]
  rw [getElem?_marks, if_pos h] at hfalse
  simpa using hfalse

/-- Give the next column a color. -/
def extend (coloring : Coloring) (forbidden : List Nat) : Coloring where
  colors := coloring.colors.push (firstFree coloring.count forbidden)
  count :=
    if firstFree coloring.count forbidden = coloring.count then coloring.count + 1
    else coloring.count
  below := by
    intro c hc
    have hle := firstFree_le coloring.count forbidden
    rcases Array.mem_push.mp hc with hc | rfl
    · have := coloring.below c hc
      split <;> omega
    · split <;> omega

/-- Color `n` columns in order. `forbidden` sees the colors given so far, and so the number of the
column at hand. -/
def greedy (forbidden : Array Nat → List Nat) : Nat → Coloring
  | 0 => identity 0
  | n + 1 =>
    let coloring := greedy forbidden n
    coloring.extend (forbidden coloring.colors)

/-- The colors of the earlier columns that share a row with the next one, given the rows of each
column and the columns of each row. -/
def rowNeighbors (columns rows : Array (List Nat)) (colors : Array Nat) : List Nat :=
  (columns.getD colors.size []).flatMap fun i => (rows.getD i []).filterMap (colors[·]?)

/-- Columns that share a row never share a color. -/
def column (p : Pattern) : Coloring :=
  greedy (rowNeighbors p.columns.toArray p.transpose.columns.toArray) p.ncols

/-- The coloring of columns, if the columns of each row fit into a table. -/
def columnOf (p : Pattern) : Except Error Coloring :=
  if p.nrows + 1 < tableLimit then .ok (column p) else .error .tooLarge

end Coloring

end Fluxion
