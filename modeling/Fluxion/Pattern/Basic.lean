import Fluxion.Error
import Fluxion.Table

/-!
# Sparsity patterns

A pattern is the set of positions of a matrix at which an entry is stored. It is kept column by
column: each column lists its rows in increasing order, and every row lies below the row count.
Both facts are part of the type, so a pattern has one representation and two patterns with the same
shape and the same positions are equal.

Everything else is read off `Pattern.positions`, the stored positions in storage order: column after
column, rows increasing. The `k`-th of them is called nonzero `k`. The compressed form, a list of
column starts beside a list of rows, is a view, not the representation.

## What is deliberately absent

There is no machine arithmetic: counts and indices are natural numbers, and nothing wraps. What is
bounded are counts, which have to fit into a word of 64 bits, and tables, which have an entry for
each column, each row or each element and have to fit into memory. Definitions whose names end in
`Of` check their arguments first: they refuse a count of `countLimit` or more, and a table of
`byteLimit` bytes or more. Most tables are of counts, which take eight bytes; these have fewer than
`tableLimit` entries. Where nothing can be that large, the definition without the check is used.

## Main definitions

* `countLimit`, `byteLimit`, `tableLimit`: what no count and what no table reaches; `EntrySize`: how
  much of a table an entry takes.
* `Pattern`: the type; `Pattern.positions`, `Pattern.find?`: positions by number, numbers by
  position; `Pattern.numelOf` checks the number of elements.
* `Pattern.numberedColumns`: the columns with the numbers of their nonzeros.
* `Pattern.starts`, `Pattern.rows`: the compressed view.
* `Pattern.dense`, `Pattern.empty`, `Pattern.diagonal`, `Pattern.tabulate`: patterns from scratch;
  `Pattern.denseOf`, `Pattern.denseColumnOf`, `Pattern.emptyOf`, `Pattern.diagonalOf` check sizes.
* `insertRow`, `mergeRows`: ordered insertion and merging, on which sets of rows are built.
-/

namespace Fluxion

/-! ### Sizes -/

/-- Every count is less than this, so that it fits into a word of 64 bits. -/
def countLimit : Nat := 18446744073709551616

/-- Every table lies in one block of fewer bytes than this. -/
def byteLimit : Nat := 9223372036854775808

/-- Every table of counts, which take eight bytes each, has fewer entries than this. -/
def tableLimit : Nat := 1152921504606846976

example : tableLimit * 8 = byteLimit := by decide

/-- Values of the type have a place in tables, and all take the same number of bytes there. -/
class EntrySize (α : Type) where
  bytes : Nat

/-! ### Columns -/

/-- The rows of one column: increasing, and below the row count. -/
def IsColumn (nrows : Nat) (rows : List Nat) : Prop :=
  rows.Pairwise (· < ·) ∧ ∀ r ∈ rows, r < nrows

instance (nrows : Nat) (rows : List Nat) : Decidable (IsColumn nrows rows) := by
  unfold IsColumn; infer_instance

theorem isColumn_nil (nrows : Nat) : IsColumn nrows [] := by
  simp [IsColumn]

theorem isColumn_range (nrows : Nat) : IsColumn nrows (List.range nrows) :=
  ⟨List.pairwise_lt_range, fun _ h => List.mem_range.mp h⟩

theorem IsColumn.filter {nrows : Nat} {rows : List Nat} (h : IsColumn nrows rows)
    (keep : Nat → Bool) : IsColumn nrows (rows.filter keep) :=
  ⟨h.1.filter keep, fun r hr => h.2 r (List.mem_filter.mp hr).1⟩

/-- Put a row into its place among increasing rows, unless it is there already. -/
def insertRow (r : Nat) : List Nat → List Nat
  | [] => [r]
  | s :: rest => if r < s then r :: s :: rest else if r = s then s :: rest else s :: insertRow r rest

@[simp] theorem mem_insertRow {r x : Nat} {rows : List Nat} :
    x ∈ insertRow r rows ↔ x = r ∨ x ∈ rows := by
  induction rows with
  | nil => simp [insertRow]
  | cons s rest ih =>
    unfold insertRow
    split
    · simp
    · split
      · subst r; simp
      · simp [ih, or_left_comm]

theorem pairwise_insertRow {r : Nat} {rows : List Nat} (h : rows.Pairwise (· < ·)) :
    (insertRow r rows).Pairwise (· < ·) := by
  induction rows with
  | nil => simp [insertRow]
  | cons s rest ih =>
    obtain ⟨hs, hrest⟩ := List.pairwise_cons.mp h
    unfold insertRow
    split
    · rename_i hlt
      refine List.pairwise_cons.mpr ⟨fun x hx => ?_, h⟩
      rcases List.mem_cons.mp hx with rfl | hx
      · exact hlt
      · exact Nat.lt_trans hlt (hs x hx)
    · split
      · exact h
      · refine List.pairwise_cons.mpr ⟨fun x hx => ?_, ih hrest⟩
        rcases mem_insertRow.mp hx with rfl | hx
        · omega
        · exact hs x hx

theorem IsColumn.insertRow {nrows r : Nat} {rows : List Nat} (h : IsColumn nrows rows)
    (hr : r < nrows) : IsColumn nrows (insertRow r rows) :=
  ⟨pairwise_insertRow h.1, fun x hx => by
    rcases mem_insertRow.mp hx with rfl | hx
    · exact hr
    · exact h.2 x hx⟩

theorem takeWhile_lt_eq_filter {r : Nat} {rows : List Nat} (h : rows.Pairwise (· < ·)) :
    rows.takeWhile (· < r) = rows.filter (· < r) := by
  induction rows with
  | nil => rfl
  | cons s rest ih =>
    obtain ⟨hs, hrest⟩ := List.pairwise_cons.mp h
    by_cases hsr : s < r
    · simp [hsr, ih hrest]
    · have : rest.filter (· < r) = [] := List.filter_eq_nil_iff.mpr fun x hx => by
        have := hs x hx
        simp; omega
      simp [hsr, this]

theorem dropWhile_le_eq_filter {r : Nat} {rows : List Nat} (h : rows.Pairwise (· < ·)) :
    rows.dropWhile (· ≤ r) = rows.filter (r < ·) := by
  induction rows with
  | nil => rfl
  | cons s rest ih =>
    obtain ⟨hs, hrest⟩ := List.pairwise_cons.mp h
    by_cases hsr : s ≤ r
    · simp [hsr, ih hrest, Nat.not_lt.mpr hsr]
    · have : rest.filter (r < ·) = rest := List.filter_eq_self.mpr fun x hx => by
        have := hs x hx
        simp; omega
      simp [hsr, this, Nat.lt_of_not_le hsr]

/-- The rows of either list, each once and in order, if both lists are. -/
def mergeRows : List Nat → List Nat → List Nat
  | [], others => others
  | r :: rest, others =>
    others.takeWhile (· < r) ++ r :: mergeRows rest (others.dropWhile (· ≤ r))

theorem mergeRows_cons {r : Nat} {rest others : List Nat} (h : others.Pairwise (· < ·)) :
    mergeRows (r :: rest) others
      = others.filter (· < r) ++ r :: mergeRows rest (others.filter (r < ·)) := by
  rw [mergeRows, takeWhile_lt_eq_filter h, dropWhile_le_eq_filter h]

theorem mem_mergeRows {x : Nat} {rows others : List Nat} (h : others.Pairwise (· < ·)) :
    x ∈ mergeRows rows others ↔ x ∈ rows ∨ x ∈ others := by
  induction rows generalizing others with
  | nil => simp [mergeRows]
  | cons r rest ih =>
    rw [mergeRows_cons h, List.mem_append, List.mem_cons, ih (h.filter _), List.mem_cons]
    simp only [List.mem_filter, decide_eq_true_eq]
    rcases Nat.lt_trichotomy x r with hx | rfl | hx
    · simp only [hx, Nat.lt_asymm hx, and_true, and_false, or_false]
      constructor
      · rintro (hm | rfl | hm)
        · exact .inr hm
        · exact .inl (.inl rfl)
        · exact .inl (.inr hm)
      · rintro ((rfl | hm) | hm)
        · exact .inr (.inl rfl)
        · exact .inr (.inr hm)
        · exact .inl hm
    · simp
    · simp only [hx, Nat.lt_asymm hx, and_true, and_false, false_or, or_assoc]

theorem pairwise_mergeRows {rows others : List Nat} (hrows : rows.Pairwise (· < ·))
    (hothers : others.Pairwise (· < ·)) : (mergeRows rows others).Pairwise (· < ·) := by
  induction rows generalizing others with
  | nil => exact hothers
  | cons r rest ih =>
    obtain ⟨hr, hrest⟩ := List.pairwise_cons.mp hrows
    have hlast : ∀ x ∈ mergeRows rest (others.filter (r < ·)), r < x := by
      intro x hx
      rcases (mem_mergeRows (hothers.filter _)).mp hx with hx | hx
      · exact hr x hx
      · simpa using (List.mem_filter.mp hx).2
    rw [mergeRows_cons hothers, List.pairwise_append]
    refine ⟨hothers.filter _, List.pairwise_cons.mpr ⟨hlast, ih hrest (hothers.filter _)⟩, ?_⟩
    intro x hx y hy
    have hxr : x < r := by simpa using (List.mem_filter.mp hx).2
    rcases List.mem_cons.mp hy with rfl | hy
    · exact hxr
    · exact Nat.lt_trans hxr (hlast y hy)

theorem IsColumn.mergeRows {nrows : Nat} {rows others : List Nat} (hrows : IsColumn nrows rows)
    (hothers : IsColumn nrows others) : IsColumn nrows (mergeRows rows others) :=
  ⟨pairwise_mergeRows hrows.1 hothers.1, fun x hx =>
    ((mem_mergeRows hothers.1).mp hx).elim (hrows.2 x) (hothers.2 x)⟩

/-! ### The type -/

/-- The positions of a matrix at which an entry is stored, column by column. -/
structure Pattern where
  nrows : Nat
  /-- The rows of each column. -/
  columns : List (List Nat)
  isColumn : ∀ rows ∈ columns, IsColumn nrows rows
deriving DecidableEq, Repr

namespace Pattern

/-- The number of columns. -/
def ncols (p : Pattern) : Nat := p.columns.length

/-- Row count and column count. -/
def shape (p : Pattern) : Shape := (p.nrows, p.ncols)

/-- The rows of column `j`, none if there is no such column. -/
def column (p : Pattern) (j : Nat) : List Nat := p.columns.getD j []

/-- The stored positions, as pairs of a row and a column, in storage order. -/
def positions (p : Pattern) : List (Nat × Nat) :=
  p.columns.zipIdx.flatMap fun (rows, j) => rows.map (·, j)

/-- The number of stored positions. -/
def nnz (p : Pattern) : Nat := p.positions.length

/-- The number of elements, stored or not. -/
def numel (p : Pattern) : Nat := p.nrows * p.ncols

/-- The number of elements, if it is a count. -/
def numelOf (p : Pattern) : Except Error Nat :=
  if p.numel < countLimit then .ok p.numel else .error .tooLarge

/-- The row of each nonzero. -/
def rows (p : Pattern) : List Nat := p.positions.map Prod.fst

/-- The column of each nonzero. -/
def columnNumbers (p : Pattern) : List Nat := p.positions.map Prod.snd

/-- The place of each nonzero among all elements, counted down the columns. -/
def linearIndices (p : Pattern) : List Nat := p.positions.map fun (r, c) => r + c * p.nrows

/-- Running totals of column lengths, from a first total on. -/
def startsFrom : Nat → List (List Nat) → List Nat
  | total, [] => [total]
  | total, rows :: rest => total :: startsFrom (total + rows.length) rest

/-- Where each column starts among the nonzeros, and where the last one ends. -/
def starts (p : Pattern) : List Nat := startsFrom 0 p.columns

/-- Columns with the number of each nonzero beside its row, counted from a first number on. -/
def numberFrom : Nat → List (List Nat) → List (List (Nat × Nat))
  | _, [] => []
  | first, rows :: rest => rows.zipIdx first :: numberFrom (first + rows.length) rest

/-- The columns of a pattern, with the number of each nonzero beside its row. -/
def numberedColumns (p : Pattern) : List (List (Nat × Nat)) := numberFrom 0 p.columns

/-- The nonzero at a position, if one is stored there. -/
def find? (p : Pattern) (r c : Nat) : Option Nat := p.positions.idxOf? (r, c)

/-- One row and one column, whether the element is stored or not. -/
def isScalar (p : Pattern) : Bool := p.shape == (1, 1)

/-- Every element is stored. -/
def isDense (p : Pattern) : Bool := p.nnz == p.numel

/-- As many rows as columns. -/
def isSquare (p : Pattern) : Bool := p.nrows == p.ncols

/-! ### Patterns from scratch -/

theorem column_isColumn (p : Pattern) (j : Nat) : IsColumn p.nrows (p.column j) := by
  unfold column
  rw [List.getD_eq_getElem?_getD]
  cases h : p.columns[j]? with
  | none => exact isColumn_nil _
  | some rows => exact p.isColumn rows (List.mem_of_getElem? h)

/-- Exactly the positions at which `keep` holds. -/
def tabulate (nrows ncols : Nat) (keep : Nat → Nat → Bool) : Pattern where
  nrows := nrows
  columns := (List.range ncols).map fun j => (List.range nrows).filter (keep · j)
  isColumn := by
    intro rows h
    obtain ⟨j, -, rfl⟩ := List.mem_map.mp h
    exact (isColumn_range nrows).filter _

/-- Every element stored. -/
def dense (nrows ncols : Nat) : Pattern where
  nrows := nrows
  columns := (List.range ncols).map fun _ => List.range nrows
  isColumn := by
    intro rows h
    obtain ⟨-, -, rfl⟩ := List.mem_map.mp h
    exact isColumn_range nrows

/-- No element stored. -/
def empty (nrows ncols : Nat) : Pattern where
  nrows := nrows
  columns := List.replicate ncols []
  isColumn := by
    intro rows h
    rw [List.eq_of_mem_replicate h]
    exact isColumn_nil nrows

/-- One row, one column, stored. -/
def scalar : Pattern := dense 1 1

/-- One dense column. -/
def denseColumn (n : Nat) : Pattern := dense n 1

/-- The diagonal of a square. -/
def diagonal (n : Nat) : Pattern where
  nrows := n
  columns := (List.range n).map fun j => [j]
  isColumn := by
    intro rows h
    obtain ⟨j, hj, rfl⟩ := List.mem_map.mp h
    exact ⟨List.pairwise_singleton _ _, by simpa using hj⟩

/-- The dense pattern, if its starts and its rows fit into tables. -/
def denseOf (nrows ncols : Nat) : Except Error Pattern :=
  if ncols + 1 < tableLimit ∧ nrows * ncols < tableLimit then .ok (dense nrows ncols)
  else .error .tooLarge

/-- The dense column, if its rows fit into a table. -/
def denseColumnOf (n : Nat) : Except Error Pattern := denseOf n 1

/-- The empty pattern, if its starts fit into a table. -/
def emptyOf (nrows ncols : Nat) : Except Error Pattern :=
  if ncols + 1 < tableLimit then .ok (empty nrows ncols) else .error .tooLarge

/-- The diagonal, if its starts fit into a table. -/
def diagonalOf (n : Nat) : Except Error Pattern :=
  if n + 1 < tableLimit then .ok (diagonal n) else .error .tooLarge

/-- Enter a row into one column of many. -/
def enter (columns : Array (List Nat)) (r c : Nat) : Array (List Nat) :=
  columns.modify c (insertRow r)

theorem enter_isColumn {nrows r c : Nat} {columns : Array (List Nat)} (hr : r < nrows)
    (h : ∀ rows ∈ columns, IsColumn nrows rows) :
    ∀ rows ∈ enter columns r c, IsColumn nrows rows := by
  intro rows hrows
  obtain ⟨j, hj⟩ := Array.mem_iff_getElem?.mp hrows
  rw [enter, Array.getElem?_modify] at hj
  cases hc : columns[j]? with
  | none => simp [hc] at hj
  | some old =>
    have hold := h old (Array.mem_of_getElem? hc)
    rw [hc] at hj
    split at hj
    · simp only [Option.map_some, Option.some.injEq] at hj
      subst hj
      exact hold.insertRow hr
    · cases hj
      exact hold

/-- The columns that hold the entries inside the shape. -/
def enterAll (nrows ncols : Nat) (entries : List (Nat × Nat)) : Array (List Nat) :=
  entries.foldr (fun (r, c) columns => if r < nrows then enter columns r c else columns)
    (Array.replicate ncols [])

theorem enterAll_cons (nrows ncols r c : Nat) (rest : List (Nat × Nat)) :
    enterAll nrows ncols ((r, c) :: rest) =
      if r < nrows then enter (enterAll nrows ncols rest) r c else enterAll nrows ncols rest := rfl

theorem enterAll_isColumn (nrows ncols : Nat) (entries : List (Nat × Nat)) :
    ∀ rows ∈ enterAll nrows ncols entries, IsColumn nrows rows := by
  induction entries with
  | nil =>
    intro rows h
    rw [(Array.mem_replicate.mp h).2]
    exact isColumn_nil nrows
  | cons entry rest ih =>
    rw [enterAll_cons]
    split
    · rename_i hr
      exact enter_isColumn hr ih
    · exact ih

@[simp] theorem size_enterAll (nrows ncols : Nat) (entries : List (Nat × Nat)) :
    (enterAll nrows ncols entries).size = ncols := by
  induction entries with
  | nil => simp [enterAll]
  | cons entry rest ih =>
    rw [enterAll_cons]
    split
    · rw [enter, Array.size_modify]
      exact ih
    · exact ih

/-- The positions of a list that lie inside the shape. Order and repetition do not matter. -/
def ofPositions (nrows ncols : Nat) (entries : List (Nat × Nat)) : Pattern where
  nrows := nrows
  columns := (enterAll nrows ncols entries).toList
  isColumn := fun rows h => enterAll_isColumn nrows ncols entries rows (Array.mem_toList_iff.mp h)

@[simp] theorem nrows_ofPositions (nrows ncols : Nat) (entries : List (Nat × Nat)) :
    (ofPositions nrows ncols entries).nrows = nrows := rfl

@[simp] theorem ncols_ofPositions (nrows ncols : Nat) (entries : List (Nat × Nat)) :
    (ofPositions nrows ncols entries).ncols = ncols := by
  simp [ofPositions, Pattern.ncols]

/-! ### The compressed form -/

/-- The first rule that the rows of a column break, if any. Each row is held against the bound
first and then against the row before it. -/
def rowFault (nrows : Nat) : Option Nat → List Nat → Option Precondition
  | _, [] => none
  | last, r :: rest =>
    if nrows ≤ r then some .rowBound
    else if last.any (r ≤ ·) then some .rowOrder
    else rowFault nrows (some r) rest

theorem rowFault_eq_none {nrows : Nat} {rows : List Nat} {last : Option Nat}
    (h : rowFault nrows last rows = none) :
    IsColumn nrows rows ∧ ∀ s ∈ last, ∀ r ∈ rows, s < r := by
  induction rows generalizing last with
  | nil => exact ⟨isColumn_nil nrows, by simp⟩
  | cons r rest ih =>
    unfold rowFault at h
    split at h
    · cases h
    · split at h
      · cases h
      · rename_i hb ho
        obtain ⟨hrest, hlast⟩ := ih h
        have hr : ∀ x ∈ rest, r < x := hlast r rfl
        refine ⟨⟨List.pairwise_cons.mpr ⟨hr, hrest.1⟩, ?_⟩, ?_⟩
        · intro x hx
          rcases List.mem_cons.mp hx with rfl | hx
          · omega
          · exact hrest.2 x hx
        · intro s hs x hx
          cases hs
          have hsr : s < r := by simpa using ho
          rcases List.mem_cons.mp hx with rfl | hx
          · exact hsr
          · exact Nat.lt_trans hsr (hr x hx)

/-- The columns that lie between consecutive starts, read from the list of all rows. The starts of
a column are compared first, then its rows are checked one by one, and a row that is not there is
noticed only when it is reached. -/
def readColumns (nrows : Nat) (row : List Nat) :
    List Nat → Except Error { columns : List (List Nat) // ∀ rows ∈ columns, IsColumn nrows rows }
  | start :: stop :: rest =>
    if stop < start then .error (.precondition .startOrder)
    else
      let rows := (row.drop start).take (stop - start)
      match hrows : rowFault nrows none rows with
      | some rule => .error (.precondition rule)
      | none =>
        if rows.length < stop - start then .error .outOfRange
        else
          match readColumns nrows row (stop :: rest) with
          | .error e => .error e
          | .ok ⟨columns, h⟩ => .ok ⟨rows :: columns, by
              intro c hc
              rcases List.mem_cons.mp hc with rfl | hc
              · exact (rowFault_eq_none hrows).1
              · exact h c hc⟩
  | _ => .ok ⟨[], by simp⟩

/-- The pattern with the given column starts and rows, if they describe one and the starts can be
counted. -/
def ofCompressed (nrows ncols : Nat) (starts row : List Nat) : Except Error Pattern :=
  if countLimit ≤ ncols + 1 then .error .tooLarge
  else if starts.length ≠ ncols + 1 then .error (.precondition .startCount)
  else if starts.head? ≠ some 0 then .error (.precondition .firstStart)
  else if starts.getLast? ≠ some row.length then .error (.precondition .lastStart)
  else
    match readColumns nrows row starts with
    | .error e => .error e
    | .ok ⟨columns, h⟩ => .ok ⟨nrows, columns, h⟩

/-- The pattern of the given pairs of rows and columns. The table of column starts is made before
the pairs are looked at. -/
def ofTriplets (nrows ncols : Nat) (rows cols : List Nat) : Except Error Pattern :=
  if rows.length ≠ cols.length then .error (.precondition .tripletCount)
  else if tableLimit ≤ ncols + 1 then .error .tooLarge
  else
    let entries := rows.zip cols
    if entries.any fun (r, c) => nrows ≤ r || ncols ≤ c then .error (.precondition .tripletBound)
    else .ok (ofPositions nrows ncols entries)

end Pattern

end Fluxion
