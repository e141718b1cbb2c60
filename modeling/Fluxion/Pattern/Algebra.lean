import Fluxion.Pattern.Basic

/-!
# The algebra of patterns

Patterns are combined as sets of positions: union and intersection of patterns of one shape,
transposition, the pattern of a matrix product, and blocks put on top of each other or side by side.
`Pattern.locate` says where the nonzeros of one pattern sit in another.

Where shapes have to fit, the combination takes the fit as an argument, and a second definition
checks it and names the rule that is broken. Another check is on sizes: a transpose has a column for
each row, a product marks the rows of its left factor, the rows of parts on top of each other are
counted, and parts side by side have a column for each of their columns. So the combination itself
never fails.

Columns increase, so two of them are compared in one pass: `commonRows` and `locateRows` go through
both at once.

## Main definitions

* `Pattern.union`, `Pattern.intersection`; `Pattern.unionOf`, `Pattern.intersectionOf` check shapes.
* `Pattern.transpose`, `Pattern.transposeMap`; `Pattern.transposeOf` checks the size.
* `Pattern.product`; `Pattern.productOf` checks the inner dimension and the size.
* `Pattern.stack`, `Pattern.vertcat`, `Pattern.horzcat`.
* `Pattern.locate`, `Pattern.projectMap`, `Pattern.isSubset`.

## Main statements

* `Pattern.find?_eq_lookup`: the number of a position is found in its column.
* `Pattern.locate_eq_map_find?`: one pass finds what looking for each position would find.
-/

namespace Fluxion

namespace Pattern

/-! ### Union and intersection -/

/-- Positions stored in either pattern. -/
def union (a b : Pattern) (h : a.shape = b.shape) : Pattern where
  nrows := a.nrows
  columns := List.zipWith mergeRows a.columns b.columns
  isColumn := by
    intro rows hrows
    obtain ⟨i, hi⟩ := List.mem_iff_getElem?.mp hrows
    rw [List.getElem?_zipWith] at hi
    have hn : a.nrows = b.nrows := congrArg Prod.fst h
    cases ha : a.columns[i]? with
    | none => simp [ha] at hi
    | some ra =>
      cases hb : b.columns[i]? with
      | none => simp [ha, hb] at hi
      | some rb =>
        simp only [ha, hb, Option.some.injEq] at hi
        subst hi
        have hcb := b.isColumn rb (List.mem_of_getElem? hb)
        rw [← hn] at hcb
        exact (a.isColumn ra (List.mem_of_getElem? ha)).mergeRows hcb

/-- The rows that are in both lists, if both increase. -/
def commonRows : List Nat → List Nat → List Nat
  | [], _ => []
  | r :: rest, others =>
    let later := others.dropWhile (· < r)
    if later.head? = some r then r :: commonRows rest later else commonRows rest later

theorem commonRows_sublist (rows others : List Nat) : (commonRows rows others).Sublist rows := by
  induction rows generalizing others with
  | nil => exact List.Sublist.slnil
  | cons r rest ih =>
    rw [commonRows]
    split
    · exact (ih _).cons_cons r
    · exact (ih _).cons r

theorem isColumn_commonRows {nrows : Nat} {rows : List Nat} (h : IsColumn nrows rows)
    (others : List Nat) : IsColumn nrows (commonRows rows others) :=
  ⟨h.1.sublist (commonRows_sublist rows others), fun r hr =>
    h.2 r ((commonRows_sublist rows others).subset hr)⟩

/-- Positions stored in both patterns. -/
def intersection (a b : Pattern) : Pattern where
  nrows := a.nrows
  columns := List.zipWith commonRows a.columns b.columns
  isColumn := by
    intro rows hrows
    obtain ⟨i, hi⟩ := List.mem_iff_getElem?.mp hrows
    rw [List.getElem?_zipWith] at hi
    cases ha : a.columns[i]? with
    | none => simp [ha] at hi
    | some ra =>
      cases hb : b.columns[i]? with
      | none => simp [ha, hb] at hi
      | some rb =>
        simp only [ha, hb, Option.some.injEq] at hi
        subst hi
        exact isColumn_commonRows (a.isColumn ra (List.mem_of_getElem? ha)) rb

/-- The union, if the shapes agree. -/
def unionOf (a b : Pattern) : Except Error Pattern :=
  if h : a.shape = b.shape then .ok (a.union b h) else .error (.precondition .sameShape)

/-- The intersection, if the shapes agree. -/
def intersectionOf (a b : Pattern) : Except Error Pattern :=
  if a.shape = b.shape then .ok (a.intersection b) else .error (.precondition .sameShape)

/-! ### Projection -/

/-- For each of a list of rows, the number that comes with it in a column, if the column holds it.
Both increase, so what is passed over for one row is not looked at for the next. -/
def locateRows : List (Nat × Nat) → List Nat → List (Option Nat)
  | _, [] => []
  | column, r :: rest =>
    let later := column.dropWhile (·.1 < r)
    (later.head?.bind fun (s, k) => if s = r then some k else none) :: locateRows later rest

/-- `locateRows` for column after column. Columns beyond the last one hold nothing. -/
def locateColumns : List (List (Nat × Nat)) → List (List Nat) → List (Option Nat)
  | _, [] => []
  | [], rows :: rest => locateRows [] rows ++ locateColumns [] rest
  | column :: columns, rows :: rest => locateRows column rows ++ locateColumns columns rest

/-- For each nonzero of `target`, the nonzero of `p` at the same position. -/
def locate (p target : Pattern) : List (Option Nat) :=
  locateColumns p.numberedColumns target.columns

theorem head?_dropWhile_eq_lookup {column : List (Nat × Nat)} {r : Nat}
    (h : column.Pairwise (·.1 < ·.1)) :
    ((column.dropWhile (·.1 < r)).head?.bind fun (s, k) => if s = r then some k else none)
      = column.lookup r := by
  induction column with
  | nil => rfl
  | cons entry rest ih =>
    obtain ⟨s, k⟩ := entry
    obtain ⟨hs, hrest⟩ := List.pairwise_cons.mp h
    rcases Nat.lt_trichotomy s r with hsr | rfl | hsr
    · have hne : (r == s) = false := by simpa using (Nat.ne_of_lt hsr).symm
      simp [hsr, List.lookup_cons, hne, ih hrest]
    · simp
    · have hne : (r == s) = false := by simpa using Nat.ne_of_lt hsr
      have hnone : rest.lookup r = none := List.lookup_eq_none_iff.mpr fun entry he => by
        have := hs entry he
        simp only [bne_iff_ne, ne_eq]
        omega
      simp [Nat.lt_asymm hsr, List.lookup_cons, hne, hnone, Nat.ne_of_gt hsr]

theorem lookup_dropWhile {column : List (Nat × Nat)} {r x : Nat} (hrx : r ≤ x) :
    (column.dropWhile (·.1 < r)).lookup x = column.lookup x := by
  induction column with
  | nil => rfl
  | cons entry rest ih =>
    obtain ⟨s, k⟩ := entry
    by_cases hsr : s < r
    · have hne : (x == s) = false := by
        simp only [beq_eq_false_iff_ne, ne_eq]
        omega
      simp [hsr, List.lookup_cons, hne, ih]
    · simp [hsr]

theorem locateRows_eq_map_lookup {column : List (Nat × Nat)} {rows : List Nat}
    (hcolumn : column.Pairwise (·.1 < ·.1)) (hrows : rows.Pairwise (· < ·)) :
    locateRows column rows = rows.map fun r => column.lookup r := by
  induction rows generalizing column with
  | nil => rfl
  | cons r rest ih =>
    obtain ⟨hr, hrest⟩ := List.pairwise_cons.mp hrows
    have hlater : (column.dropWhile (·.1 < r)).Pairwise (·.1 < ·.1) :=
      hcolumn.sublist (List.dropWhile_sublist _)
    rw [locateRows, head?_dropWhile_eq_lookup hcolumn, ih hlater hrest, List.map_cons]
    congr 1
    exact List.map_congr_left fun x hx => lookup_dropWhile (Nat.le_of_lt (hr x hx))

@[simp] theorem length_locateRows (column : List (Nat × Nat)) (rows : List Nat) :
    (locateRows column rows).length = rows.length := by
  induction rows generalizing column with
  | nil => rfl
  | cons r rest ih => simp [locateRows, ih]

/-- The positions of columns, the first of them being column `j`. -/
theorem length_flatMap_zipIdx (columns : List (List Nat)) (j : Nat) :
    ((columns.zipIdx j).flatMap fun (rows, j) => rows.map (·, j)).length
      = columns.flatten.length := by
  induction columns generalizing j with
  | nil => rfl
  | cons rows rest ih => simp [List.zipIdx_cons, ih (j + 1)]

theorem length_locateColumns (columns : List (List (Nat × Nat))) (target : List (List Nat)) :
    (locateColumns columns target).length = target.flatten.length := by
  induction target generalizing columns with
  | nil => simp [locateColumns]
  | cons rows rest ih => cases columns <;> simp [locateColumns, ih]

@[simp] theorem length_locate (p target : Pattern) : (p.locate target).length = target.nnz := by
  rw [locate, length_locateColumns, nnz, positions, length_flatMap_zipIdx]

theorem pairwise_zipIdx {rows : List Nat} (h : rows.Pairwise (· < ·)) (first : Nat) :
    (rows.zipIdx first).Pairwise (·.1 < ·.1) := by
  have : ((rows.zipIdx first).map Prod.fst).Pairwise (· < ·) := by
    rwa [List.zipIdx_map_fst]
  exact List.pairwise_map.mp this

theorem lookup_zipIdx (rows : List Nat) (first r : Nat) :
    (rows.zipIdx first).lookup r = (rows.idxOf? r).map (first + ·) := by
  induction rows generalizing first with
  | nil => rfl
  | cons s rest ih =>
    rw [List.zipIdx_cons, List.lookup_cons, List.idxOf?_cons]
    by_cases h : s = r
    · subst h; simp
    · have hne : (r == s) = false := by simpa using fun h' : r = s => h h'.symm
      have hne' : (s == r) = false := by simpa using h
      rw [hne, hne', ih (first + 1)]
      cases rest.idxOf? r <;> simp
      omega

/-- Where a position is among those of columns, the first of which is column `j`. -/
theorem idxOf?_flatMap_zipIdx (columns : List (List Nat)) (j first r c : Nat) :
    (((columns.zipIdx j).flatMap fun (rows, j) => rows.map (·, j)).idxOf? (r, c)).map (first + ·)
      = if c < j then none else ((numberFrom first columns).getD (c - j) []).lookup r := by
  induction columns generalizing j first with
  | nil => split <;> simp [numberFrom]
  | cons rows rest ih =>
    have hmap : (rows.map (·, j)).idxOf? (r, c) = if c = j then rows.idxOf? r else none := by
      induction rows with
      | nil => simp
      | cons s others ihs =>
        rw [List.map_cons, List.idxOf?_cons, ihs, List.idxOf?_cons]
        by_cases hc : c = j
        · subst hc
          by_cases hs : s = r <;> simp [hs]
        · have : ((s, j) == (r, c)) = false := by
            simpa using fun _ h => hc h.symm
          simp [this, hc]
    have happend (xs ys : List (Nat × Nat)) : (xs ++ ys).idxOf? (r, c)
        = (xs.idxOf? (r, c)).or ((ys.idxOf? (r, c)).map (· + xs.length)) := List.findIdx?_append
    have hrest := ih (j + 1) (first + rows.length)
    rw [List.zipIdx_cons, List.flatMap_cons, happend, hmap, List.length_map, numberFrom]
    rcases Nat.lt_trichotomy c j with hc | rfl | hc
    · rw [if_pos (Nat.lt_succ_of_lt hc), Option.map_eq_none_iff] at hrest
      simp [hc, hrest, Nat.ne_of_lt hc]
    · rw [if_pos (Nat.lt_succ_self c), Option.map_eq_none_iff] at hrest
      simp [hrest, lookup_zipIdx]
    · have hsub : c - j = c - (j + 1) + 1 := by omega
      rw [if_neg (Nat.not_lt.mpr hc)] at hrest
      rw [if_neg (Nat.ne_of_gt hc), if_neg (Nat.lt_asymm hc), hsub, List.getD_cons_succ, ← hrest,
        Option.none_or, Option.map_map]
      congr 1
      funext k
      simp only [Function.comp]
      omega

/-- The number of a position is what its column holds beside its row. -/
theorem find?_eq_lookup (p : Pattern) (r c : Nat) :
    p.find? r c = (p.numberedColumns.getD c []).lookup r := by
  have h := idxOf?_flatMap_zipIdx p.columns 0 0 r c
  simpa [find?, positions, numberedColumns] using h

theorem pairwise_of_mem_numberFrom {columns : List (List Nat)} {first : Nat}
    (h : ∀ rows ∈ columns, rows.Pairwise (· < ·)) :
    ∀ column ∈ numberFrom first columns, column.Pairwise (·.1 < ·.1) := by
  induction columns generalizing first with
  | nil => simp [numberFrom]
  | cons rows rest ih =>
    rw [numberFrom]
    intro column hc
    rcases List.mem_cons.mp hc with rfl | hc
    · exact pairwise_zipIdx (h rows (by simp)) first
    · exact ih (fun x hx => h x (List.mem_cons_of_mem rows hx)) column hc

theorem locateColumns_eq_flatMap {columns : List (List (Nat × Nat))} {target : List (List Nat)}
    (hcolumns : ∀ column ∈ columns, column.Pairwise (·.1 < ·.1))
    (htarget : ∀ rows ∈ target, rows.Pairwise (· < ·)) :
    locateColumns columns target
      = target.zipIdx.flatMap fun (rows, j) => rows.map fun r => (columns.getD j []).lookup r := by
  have general : ∀ (j : Nat) (all : List (List (Nat × Nat))), columns = all.drop j →
      locateColumns columns target
        = (target.zipIdx j).flatMap fun (rows, j) => rows.map fun r => (all.getD j []).lookup r := by
    induction target generalizing columns with
    | nil => intro j all _; simp [locateColumns]
    | cons rows rest ih =>
      intro j all hall
      have hrows := htarget rows (by simp)
      have hrest : ∀ x ∈ rest, x.Pairwise (· < ·) := fun x hx =>
        htarget x (List.mem_cons_of_mem rows hx)
      rw [List.zipIdx_cons, List.flatMap_cons]
      cases columns with
      | nil =>
        have hj : all.length ≤ j := List.drop_eq_nil_iff.mp hall.symm
        rw [locateColumns, locateRows_eq_map_lookup List.Pairwise.nil hrows,
          ih (by simp) hrest (j + 1) all (List.drop_eq_nil_iff.mpr (by omega)).symm]
        simp [List.getD_eq_getElem?_getD, List.getElem?_eq_none hj]
      | cons column others =>
        have hget : all[j]? = some column := by
          have : (all.drop j)[0]? = some column := by rw [← hall]; rfl
          simpa using this
        have hothers : others = all.drop (j + 1) := by
          have : (all.drop j).tail = others := by rw [← hall]; rfl
          rw [← this, List.tail_drop]
        rw [locateColumns, locateRows_eq_map_lookup (hcolumns column (by simp)) hrows,
          ih (fun x hx => hcolumns x (List.mem_cons_of_mem column hx)) hrest (j + 1) all hothers]
        simp [List.getD_eq_getElem?_getD, hget]
  exact general 0 columns rfl

/-- One pass over both patterns finds what looking for each position of the target would find. -/
theorem locate_eq_map_find? (p target : Pattern) :
    p.locate target = target.positions.map fun (r, c) => p.find? r c := by
  rw [locate, numberedColumns, locateColumns_eq_flatMap
    (pairwise_of_mem_numberFrom fun rows h => (p.isColumn rows h).1)
    (fun rows h => (target.isColumn rows h).1), positions, List.map_flatMap]
  congr 1
  funext entry
  rw [List.map_map]
  exact List.map_congr_left fun r _ => (p.find?_eq_lookup r entry.2).symm

/-- `Pattern.locate` for a target of the same shape. -/
def projectMap (p target : Pattern) : Except Error (List (Option Nat)) :=
  if p.shape = target.shape then .ok (p.locate target)
  else .error (.precondition .projectionShape)

/-- The shapes agree and every position of `p` is one of `other`. -/
def isSubset (p other : Pattern) : Bool :=
  p.shape == other.shape && (p.locate other).countP Option.isSome == p.nnz

/-! ### Transposition -/

/-- Rows and columns exchanged. -/
def transpose (p : Pattern) : Pattern := ofPositions p.ncols p.nrows (p.positions.map Prod.swap)

/-- The transpose, if its starts fit into a table. -/
def transposeOf (p : Pattern) : Except Error Pattern :=
  if p.nrows + 1 < tableLimit then .ok p.transpose else .error .tooLarge

/-- For each nonzero of the transpose, the nonzero of `p` that it comes from: the nonzeros of `p` row
by row. -/
def transposeMap (p : Pattern) : List Nat := (buckets p.nrows p.rows.zipIdx).toList.flatten

@[simp] theorem ncols_transpose (p : Pattern) : p.transpose.ncols = p.nrows := by
  simp [transpose]

@[simp] theorem nrows_transpose (p : Pattern) : p.transpose.nrows = p.ncols := rfl

theorem shape_transpose_of_square {p : Pattern} (h : p.nrows = p.ncols) :
    p.shape = p.transpose.shape := by
  simp [shape, h]

/-! ### Product -/

/-- Rows of the left factor that meet the given inner indices. -/
def reach (p : Pattern) (inner : List Nat) : List Nat :=
  inner.foldr (fun k rows => mergeRows (p.column k) rows) []

theorem reach_isColumn (p : Pattern) (inner : List Nat) : IsColumn p.nrows (p.reach inner) := by
  induction inner with
  | nil => exact isColumn_nil _
  | cons k rest ih => exact (p.column_isColumn k).mergeRows ih

/-- Where a matrix product may have an entry. -/
def product (a b : Pattern) : Pattern where
  nrows := a.nrows
  columns := b.columns.map a.reach
  isColumn := by
    intro rows h
    obtain ⟨inner, -, rfl⟩ := List.mem_map.mp h
    exact a.reach_isColumn inner

/-- The product pattern, if the inner dimensions agree and a mark for each row fits into a table. -/
def productOf (a b : Pattern) : Except Error Pattern :=
  if a.ncols ≠ b.nrows then .error (.precondition .innerDimension)
  else if tableLimit ≤ a.nrows then .error .tooLarge
  else .ok (a.product b)

/-! ### Blocks -/

/-- Column `j` of parts on top of each other, the first of them beginning at row `offset`. -/
def stackColumn (j : Nat) : Nat → List Pattern → List Nat
  | _, [] => []
  | offset, p :: rest => (p.column j).map (· + offset) ++ stackColumn j (offset + p.nrows) rest

/-- The number of rows of parts on top of each other. -/
def totalRows (parts : List Pattern) : Nat := parts.foldr (fun p rows => p.nrows + rows) 0

theorem mem_stackColumn {j x : Nat} {parts : List Pattern} {offset : Nat}
    (h : x ∈ stackColumn j offset parts) : offset ≤ x ∧ x < offset + totalRows parts := by
  induction parts generalizing offset with
  | nil => simp [stackColumn] at h
  | cons p rest ih =>
    rw [stackColumn, List.mem_append] at h
    have htotal : totalRows (p :: rest) = p.nrows + totalRows rest := by simp [totalRows]
    rcases h with h | h
    · obtain ⟨r, hr, rfl⟩ := List.mem_map.mp h
      have := (p.column_isColumn j).2 r hr
      omega
    · have := ih h
      omega

theorem pairwise_stackColumn (j : Nat) (parts : List Pattern) (offset : Nat) :
    (stackColumn j offset parts).Pairwise (· < ·) := by
  induction parts generalizing offset with
  | nil => simp [stackColumn]
  | cons p rest ih =>
    rw [stackColumn, List.pairwise_append]
    refine ⟨?_, ih _, ?_⟩
    · rw [List.pairwise_map]
      exact (p.column_isColumn j).1.imp fun h => by omega
    · intro x hx y hy
      obtain ⟨r, hr, rfl⟩ := List.mem_map.mp hx
      have := (p.column_isColumn j).2 r hr
      have := mem_stackColumn hy
      omega

/-- Parts on top of each other, with the columns of the first. -/
def stack (parts : List Pattern) : Pattern where
  nrows := totalRows parts
  columns := (List.range (parts.head?.elim 0 ncols)).map (stackColumn · 0 parts)
  isColumn := by
    intro rows h
    obtain ⟨j, -, rfl⟩ := List.mem_map.mp h
    exact ⟨pairwise_stackColumn j parts 0, fun r hr => by
      have := mem_stackColumn hr
      omega⟩

/-- Parts on top of each other. The rows are counted first. The column counts are compared while a
column is stacked, so they are never compared if the first part has no column. -/
def vertcat (parts : List Pattern) : Except Error Pattern :=
  let columns := parts.head?.elim 0 ncols
  if countLimit ≤ totalRows parts then .error .tooLarge
  else if 0 < columns ∧ ∃ p ∈ parts, p.ncols ≠ columns then .error (.precondition .stackedColumns)
  else .ok (stack parts)

/-- The number of columns of parts side by side. -/
def totalColumns (parts : List Pattern) : Nat := parts.foldr (fun p columns => p.ncols + columns) 0

/-- Parts side by side. There is a table for the columns of all parts before a row count is compared
with that of the first part; a part that is given several times counts as often. -/
def horzcat (parts : List Pattern) : Except Error Pattern :=
  let rows := parts.head?.elim 0 nrows
  if tableLimit ≤ totalColumns parts + 1 then .error .tooLarge
  else if h : ∀ p ∈ parts, p.nrows = rows then
    .ok ⟨rows, parts.flatMap columns, by
      intro c hc
      obtain ⟨p, hp, hcp⟩ := List.mem_flatMap.mp hc
      have := p.isColumn c hcp
      rwa [h p hp] at this⟩
  else .error (.precondition .adjacentRows)

end Pattern

end Fluxion
