import Fluxion.Proofs.Pattern.Sets

/-!
# Compressed columns

A pattern in compressed form is two lists: where each column starts among the nonzeros, with the end
of the last one, and the rows of all nonzeros. Which lists are a pattern is said by `IsCompressed`,
without any reading: it speaks of neighbouring starts and of what the list of rows has between them.

A reader goes through the starts with less caution. It looks at the rows of a column before it knows
whether the starts that follow are in order, so a start may point past the last row. No such list is
let through, since a row that is not there is a fault of its own. What passes, span by span, is
`IsSpan`, and over all spans of lists that begin with zero and end with the number of rows that is
the same.

The operations on patterns do not read. That the lists of their results obey the rules all the same
is stated together with what is in them: the lists of a pattern are determined by the shape and the
members, so `Canonical` leaves nothing open.

## Main definitions

* `Pattern.IsCompressed` — the rules on starts and rows
* `Pattern.Canonical` — the outcome of an operation, read from its lists
* `Error.IsBreach` — causes that answer no request

## Main results

* `Pattern.ofCompressed_eq_ok_iff`, `Pattern.exists_error_ofCompressed` — **a pattern is read from
  exactly the lists that obey the rules**
* `Pattern.isCompressed`, `Pattern.map_slice_starts` — the lists of a pattern
* `Pattern.canonical_operations` — **every operation makes lists that obey the rules**
-/

namespace Fluxion

/-- The cause is a broken precondition and no answer to a request. -/
def Error.IsBreach : Error → Prop
  | .precondition _ | .outOfRange | .tooLarge => True
  | _ => False

namespace Pattern

variable {p q : Pattern} {nrows ncols start stop : Nat} {starts row rest : List Nat}

/-- Where each column begins and ends among the nonzeros: neighbouring starts. -/
def spans (starts : List Nat) : List (Nat × Nat) := starts.zip starts.tail

/-- What a list of rows has between two starts. -/
def slice (row : List Nat) (span : Nat × Nat) : List Nat := (row.drop span.1).take (span.2 - span.1)

/-- The rules on the two lists of a compressed pattern. -/
@[mk_iff]
structure IsCompressed (nrows ncols : Nat) (starts row : List Nat) : Prop where
  length_starts : starts.length = ncols + 1
  first : starts[0]? = some 0
  last : starts[ncols]? = some row.length
  ordered : starts.Pairwise (· ≤ ·)
  isColumn : ∀ span ∈ spans starts, IsColumn nrows (slice row span)

instance : Decidable (IsCompressed nrows ncols starts row) :=
  decidable_of_iff' _ (isCompressed_iff nrows ncols starts row)

/-! ### Spans -/

theorem spans_cons_cons (start stop : Nat) (rest : List Nat) :
    spans (start :: stop :: rest) = (start, stop) :: spans (stop :: rest) := rfl

theorem length_slice (row : List Nat) (span : Nat × Nat) :
    (slice row span).length = min (span.2 - span.1) (row.length - span.1) := by
  rw [slice, List.length_take, List.length_drop]

/-- What is read of a span before the next one is. -/
structure IsSpan (nrows : Nat) (row : List Nat) (span : Nat × Nat) : Prop where
  ordered : span.1 ≤ span.2
  isColumn : IsColumn nrows (slice row span)
  complete : (slice row span).length = span.2 - span.1

/-- Starts increase if each is followed by no smaller one. -/
theorem forall_spans_iff_pairwise :
    (∀ span ∈ spans starts, span.1 ≤ span.2) ↔ starts.Pairwise (· ≤ ·) := by
  induction starts with
  | nil => simp [spans]
  | cons start tail ih =>
    cases tail with
    | nil => simp [spans]
    | cons stop rest =>
      rw [spans_cons_cons, List.forall_mem_cons, ih]
      refine Iff.trans (and_congr_left fun hrest => ?_) List.pairwise_cons.symm
      constructor
      · intro hle x hx
        rcases List.mem_cons.mp hx with rfl | hx
        · exact hle
        · exact Nat.le_trans hle ((List.pairwise_cons.mp hrest).1 x hx)
      · exact fun h => h stop List.mem_cons_self

theorem snd_mem_of_mem_spans {span : Nat × Nat} (h : span ∈ spans starts) : span.2 ∈ starts :=
  List.mem_of_mem_tail (List.of_mem_zip (show (span.1, span.2) ∈ starts.zip starts.tail from h)).2

namespace IsCompressed

/-- No start lies beyond the last row. -/
theorem le_length (h : IsCompressed nrows ncols starts row) (hstart : start ∈ starts) :
    start ≤ row.length := by
  obtain ⟨j, hj, rfl⟩ := List.mem_iff_getElem.mp hstart
  obtain ⟨hlast, hlength⟩ := List.getElem?_eq_some_iff.mp h.last
  rw [← hlength]
  have hle : j ≤ ncols := by
    have := h.length_starts
    omega
  rcases Nat.lt_or_eq_of_le hle with hlt | rfl
  · exact List.pairwise_iff_getElem.mp h.ordered j ncols hj hlast hlt
  · exact Nat.le_refl _

theorem isSpan (h : IsCompressed nrows ncols starts row) {span : Nat × Nat}
    (hspan : span ∈ spans starts) : IsSpan nrows row span := by
  have hordered := forall_spans_iff_pairwise.mpr h.ordered span hspan
  have hlast := h.le_length (snd_mem_of_mem_spans hspan)
  refine ⟨hordered, h.isColumn span hspan, ?_⟩
  rw [length_slice]
  omega

end IsCompressed

/-! ### Reading columns -/

theorem rowFault_eq_none_iff {rows : List Nat} {last : Option Nat} :
    rowFault nrows last rows = none ↔ IsColumn nrows rows ∧ ∀ s ∈ last, ∀ r ∈ rows, s < r := by
  refine ⟨rowFault_eq_none, ?_⟩
  rintro ⟨hrows, hlast⟩
  induction rows generalizing last with
  | nil => rfl
  | cons r rest ih =>
    obtain ⟨hr, hrest⟩ := List.pairwise_cons.mp hrows.1
    have hbound : ¬ nrows ≤ r := Nat.not_le.mpr (hrows.2 r List.mem_cons_self)
    have horder : ¬ last.any (r ≤ ·) = true := by
      rw [Option.any_eq_true]
      rintro ⟨s, hs, hle⟩
      have := hlast s hs r List.mem_cons_self
      have : r ≤ s := by simpa using hle
      omega
    rw [rowFault, if_neg hbound, if_neg horder]
    refine ih ⟨hrest, fun x hx => hrows.2 x (List.mem_cons_of_mem r hx)⟩ ?_
    rintro s ⟨⟩
    exact hr

/-- The columns alone: those of one span, and those that follow. -/
theorem map_readColumns_cons_cons (start stop : Nat) (rest : List Nat) :
    (readColumns nrows row (start :: stop :: rest)).map Subtype.val =
      if stop < start then .error (.precondition .startOrder)
      else match rowFault nrows none (slice row (start, stop)) with
        | some rule => .error (.precondition rule)
        | none =>
          if (slice row (start, stop)).length < stop - start then .error .outOfRange
          else (readColumns nrows row (stop :: rest)).map (slice row (start, stop) :: ·.val) := by
  rw [readColumns]
  split
  · rfl
  · dsimp only
    split
    · rename_i rule hrule
      have hrule : rowFault nrows none (slice row (start, stop)) = some rule := hrule
      rw [hrule]
      rfl
    · rename_i hnone
      have hnone : rowFault nrows none (slice row (start, stop)) = none := hnone
      rw [hnone]
      dsimp only
      show Except.map Subtype.val (if (slice row (start, stop)).length < stop - start then _ else _) = _
      split
      · rfl
      · cases readColumns nrows row (stop :: rest) <;> rfl

theorem map_readColumns_of_isSpan (h : IsSpan nrows row (start, stop)) :
    (readColumns nrows row (start :: stop :: rest)).map Subtype.val =
      ((readColumns nrows row (stop :: rest)).map Subtype.val).map (slice row (start, stop) :: ·) := by
  have hfault : rowFault nrows none (slice row (start, stop)) = none :=
    rowFault_eq_none_iff.mpr ⟨h.isColumn, by simp⟩
  rw [map_readColumns_cons_cons, if_neg (Nat.not_lt.mpr h.ordered), hfault]
  dsimp only
  rw [if_neg (Nat.not_lt.mpr (Nat.le_of_eq h.complete.symm))]
  cases readColumns nrows row (stop :: rest) <;> rfl

theorem map_readColumns_of_not_isSpan (h : ¬ IsSpan nrows row (start, stop)) :
    ∃ e : Error, e.IsBreach ∧
      (readColumns nrows row (start :: stop :: rest)).map Subtype.val = .error e := by
  rw [map_readColumns_cons_cons]
  split
  · exact ⟨.precondition .startOrder, trivial, rfl⟩
  · rename_i horder
    cases hfault : rowFault nrows none (slice row (start, stop)) with
    | some rule => exact ⟨.precondition rule, trivial, rfl⟩
    | none =>
      have hlength := length_slice row (start, stop)
      have hshort : (slice row (start, stop)).length < stop - start := by
        by_contra hlong
        exact h ⟨Nat.le_of_not_lt horder, (rowFault_eq_none hfault).1, by omega⟩
      exact ⟨.outOfRange, trivial, if_pos hshort⟩

/-- **Where every span passes, the slices are read.** -/
theorem map_readColumns (h : ∀ span ∈ spans starts, IsSpan nrows row span) :
    (readColumns nrows row starts).map Subtype.val = .ok ((spans starts).map (slice row)) := by
  induction starts with
  | nil => rfl
  | cons start tail ih =>
    cases tail with
    | nil => rfl
    | cons stop rest =>
      rw [spans_cons_cons, List.forall_mem_cons] at h
      rw [map_readColumns_of_isSpan h.1, ih h.2]
      rfl

/-- Where a span does not pass, the first such span is refused. -/
theorem exists_error_readColumns (h : ¬ ∀ span ∈ spans starts, IsSpan nrows row span) :
    ∃ e : Error, e.IsBreach ∧ (readColumns nrows row starts).map Subtype.val = .error e := by
  induction starts with
  | nil => exact absurd (by simp [spans]) h
  | cons start tail ih =>
    cases tail with
    | nil => exact absurd (by simp [spans]) h
    | cons stop rest =>
      rw [spans_cons_cons, List.forall_mem_cons] at h
      by_cases hspan : IsSpan nrows row (start, stop)
      · obtain ⟨e, he, hrest⟩ := ih fun hrest => h ⟨hspan, hrest⟩
        rw [map_readColumns_of_isSpan hspan, hrest]
        exact ⟨e, he, rfl⟩
      · exact map_readColumns_of_not_isSpan hspan

/-! ### The lists of a pattern -/

theorem startsFrom_eq_cons (total : Nat) (columns : List (List Nat)) :
    ∃ rest, startsFrom total columns = total :: rest := by
  cases columns with
  | nil => exact ⟨[], rfl⟩
  | cons rows rest => exact ⟨_, rfl⟩

theorem spans_startsFrom_cons (total : Nat) (rows : List Nat) (columns : List (List Nat)) :
    spans (startsFrom total (rows :: columns)) =
      (total, total + rows.length) :: spans (startsFrom (total + rows.length) columns) := by
  obtain ⟨rest, hrest⟩ := startsFrom_eq_cons (total + rows.length) columns
  rw [startsFrom, hrest, spans_cons_cons]

theorem length_startsFrom (total : Nat) (columns : List (List Nat)) :
    (startsFrom total columns).length = columns.length + 1 := by
  induction columns generalizing total with
  | nil => rfl
  | cons rows rest ih => rw [startsFrom, List.length_cons, ih, List.length_cons]

theorem getElem?_startsFrom_length (total : Nat) (columns : List (List Nat)) :
    (startsFrom total columns)[columns.length]? = some (total + columns.flatten.length) := by
  induction columns generalizing total with
  | nil => rfl
  | cons rows rest ih =>
    rw [startsFrom, List.length_cons, List.getElem?_cons_succ, ih, List.flatten_cons,
      List.length_append, Nat.add_assoc]

theorem pairwise_startsFrom (total : Nat) (columns : List (List Nat)) :
    (startsFrom total columns).Pairwise (· ≤ ·) := by
  rw [← forall_spans_iff_pairwise]
  induction columns generalizing total with
  | nil => simp [startsFrom, spans]
  | cons rows rest ih =>
    rw [spans_startsFrom_cons, List.forall_mem_cons]
    exact ⟨Nat.le_add_right _ _, ih _⟩

/-- Columns are what their lists have between the starts. Other rows may lie in front. -/
theorem map_slice_startsFrom (front : List Nat) (columns : List (List Nat)) :
    (spans (startsFrom front.length columns)).map (slice (front ++ columns.flatten)) = columns := by
  induction columns generalizing front with
  | nil => rfl
  | cons rows rest ih =>
    have hfirst : slice (front ++ (rows :: rest).flatten) (front.length, front.length + rows.length)
        = rows := by
      simp [slice]
    have hrest := ih (front ++ rows)
    rw [List.length_append, List.append_assoc] at hrest
    rw [spans_startsFrom_cons, List.map_cons, hfirst]
    exact congrArg (rows :: ·) hrest

theorem rows_eq_flatten (p : Pattern) : p.rows = p.columns.flatten := by
  rw [rows, positions, List.map_flatMap]
  simp only [List.map_map, Function.comp_def, List.map_id']
  rw [List.flatMap, List.zipIdx_map_fst]

theorem map_slice_starts (p : Pattern) : (spans p.starts).map (slice p.rows) = p.columns := by
  rw [rows_eq_flatten]
  exact map_slice_startsFrom [] p.columns

/-- **The lists of a pattern obey the rules.** -/
theorem isCompressed (p : Pattern) : IsCompressed p.nrows p.ncols p.starts p.rows where
  length_starts := length_startsFrom 0 p.columns
  first := by
    obtain ⟨rest, hrest⟩ := startsFrom_eq_cons 0 p.columns
    rw [starts, hrest]
    rfl
  last := by
    rw [starts, ncols, getElem?_startsFrom_length, rows_eq_flatten, Nat.zero_add]
  ordered := pairwise_startsFrom 0 p.columns
  isColumn := by
    intro span hspan
    refine p.isColumn _ ?_
    rw [← map_slice_starts p]
    exact List.mem_map_of_mem hspan

/-! ### What is read is what was written -/

theorem startsFrom_slices (h : ∀ span ∈ spans (start :: rest), IsSpan nrows row span) :
    startsFrom start ((spans (start :: rest)).map (slice row)) = start :: rest := by
  induction rest generalizing start with
  | nil => rfl
  | cons stop rest ih =>
    rw [spans_cons_cons, List.forall_mem_cons] at h
    have hstop : start + (slice row (start, stop)).length = stop := by
      have hordered : start ≤ stop := h.1.ordered
      have hcomplete : (slice row (start, stop)).length = stop - start := h.1.complete
      omega
    rw [spans_cons_cons, List.map_cons, startsFrom, hstop, ih h.2]

theorem flatten_slices (h : ∀ span ∈ spans (start :: rest), IsSpan nrows row span)
    (hlast : (start :: rest)[rest.length]? = some row.length) :
    ((spans (start :: rest)).map (slice row)).flatten = row.drop start := by
  induction rest generalizing start with
  | nil =>
    obtain rfl : start = row.length := Option.some.inj hlast
    rw [List.drop_length]
    rfl
  | cons stop rest ih =>
    rw [spans_cons_cons, List.forall_mem_cons] at h
    have hordered : start ≤ stop := h.1.ordered
    rw [spans_cons_cons, List.map_cons, List.flatten_cons, ih h.2 hlast, slice]
    have hdrop : row.drop stop = (row.drop start).drop (stop - start) := by
      rw [List.drop_drop, Nat.add_sub_cancel' hordered]
    rw [hdrop, List.take_append_drop]

/-- Where the counts are right, the outcome is what is read of the columns. -/
theorem ofCompressed_eq (nrows : Nat) (hcount : ncols + 1 < countLimit)
    (hlength : starts.length = ncols + 1) (hfirst : starts[0]? = some 0)
    (hlast : starts[ncols]? = some row.length) :
    (ofCompressed nrows ncols starts row).map columns
      = (readColumns nrows row starts).map Subtype.val ∧
    ∀ p, ofCompressed nrows ncols starts row = .ok p → p.nrows = nrows := by
  have hhead : starts.head? = some 0 := by rw [List.head?_eq_getElem?, hfirst]
  have hend : starts.getLast? = some row.length := by
    rw [List.getLast?_eq_getElem?, hlength, Nat.add_sub_cancel, hlast]
  rw [ofCompressed, if_neg (Nat.not_le.mpr hcount), if_neg (not_not.mpr hlength),
    if_neg (not_not.mpr hhead), if_neg (not_not.mpr hend)]
  cases readColumns nrows row starts with
  | error e => exact ⟨rfl, nofun⟩
  | ok c => exact ⟨rfl, fun p hp => by rw [← Except.ok.inj hp]⟩

theorem exists_ofCompressed (hcount : starts.length < countLimit)
    (h : IsCompressed nrows ncols starts row) :
    ∃ p, ofCompressed nrows ncols starts row = .ok p ∧ p.nrows = nrows ∧ p.starts = starts ∧
      p.rows = row := by
  have hspans : ∀ span ∈ spans starts, IsSpan nrows row span := fun _ => h.isSpan
  obtain ⟨hcolumns, hnrows⟩ := ofCompressed_eq nrows (h.length_starts ▸ hcount)
    h.length_starts h.first h.last
  rw [map_readColumns hspans] at hcolumns
  cases hp : ofCompressed nrows ncols starts row with
  | error e =>
    rw [hp] at hcolumns
    contradiction
  | ok p =>
    rw [hp] at hcolumns
    have hcolumns : p.columns = (spans starts).map (slice row) := Except.ok.inj hcolumns
    refine ⟨p, rfl, hnrows p hp, ?_⟩
    cases starts with
    | nil => nomatch h.length_starts
    | cons start rest =>
      obtain rfl : start = 0 := Option.some.inj h.first
      have hrest : rest.length = ncols := Nat.succ.inj h.length_starts
      rw [Pattern.starts, rows_eq_flatten, hcolumns, startsFrom_slices hspans,
        flatten_slices hspans (hrest ▸ h.last)]
      exact ⟨rfl, rfl⟩

/-- All other lists are refused. -/
theorem exists_error_ofCompressed (h : ¬ IsCompressed nrows ncols starts row) :
    ∃ e : Error, e.IsBreach ∧ ofCompressed nrows ncols starts row = .error e := by
  rw [ofCompressed]
  split
  · exact ⟨.tooLarge, trivial, rfl⟩
  split
  · exact ⟨.precondition .startCount, trivial, rfl⟩
  split
  · exact ⟨.precondition .firstStart, trivial, rfl⟩
  split
  · exact ⟨.precondition .lastStart, trivial, rfl⟩
  rename_i _ hlength hhead hend
  rw [not_not] at hlength hhead hend
  have hspans : ¬ ∀ span ∈ spans starts, IsSpan nrows row span := fun hspans => h
    { length_starts := hlength
      first := by rw [← List.head?_eq_getElem?, hhead]
      last := by rw [← hend, List.getLast?_eq_getElem?, hlength, Nat.add_sub_cancel]
      ordered := forall_spans_iff_pairwise.mp fun span hspan => (hspans span hspan).ordered
      isColumn := fun span hspan => (hspans span hspan).isColumn }
  obtain ⟨e, he, hread⟩ := exists_error_readColumns hspans
  cases hc : readColumns nrows row starts with
  | error d =>
    rw [hc] at hread
    obtain rfl : d = e := Except.error.inj hread
    exact ⟨d, he, rfl⟩
  | ok c =>
    rw [hc] at hread
    contradiction

theorem eq_of_lists (hnrows : p.nrows = q.nrows) (hstarts : p.starts = q.starts)
    (hrows : p.rows = q.rows) : p = q := by
  rw [Pattern.mk.injEq, ← map_slice_starts p, ← map_slice_starts q, hstarts, hrows]
  exact ⟨hnrows, rfl⟩

/-- **A pattern is read from exactly the lists that obey the rules**, and these are its lists. -/
theorem ofCompressed_eq_ok_iff (hcount : starts.length < countLimit) :
    ofCompressed nrows ncols starts row = .ok p ↔
      IsCompressed nrows ncols starts row ∧ p.nrows = nrows ∧ p.starts = starts ∧ p.rows = row := by
  constructor
  · intro hp
    have h : IsCompressed nrows ncols starts row := by
      by_contra h
      obtain ⟨e, -, he⟩ := exists_error_ofCompressed h
      rw [hp] at he
      contradiction
    obtain ⟨q, hq, hlists⟩ := exists_ofCompressed hcount h
    obtain rfl : p = q := Except.ok.inj (hp.symm.trans hq)
    exact ⟨h, hlists⟩
  · rintro ⟨h, rfl, rfl, rfl⟩
    obtain ⟨q, hq, hnrows, hstarts, hrows⟩ := exists_ofCompressed hcount h
    rw [hq, eq_of_lists hnrows hstarts hrows]

/-! ### What operations make -/

/-- Whatever an operation makes has a shape, its lists obey the rules, and between the starts of a
column are the rows of its members. -/
def Canonical (shape : Shape) (members : Set (Nat × Nat)) (outcome : Except Error Pattern) : Prop :=
  ∀ p, outcome = .ok p → p.shape = shape ∧ IsCompressed shape.1 shape.2 p.starts p.rows ∧
    ∀ j span, (spans p.starts)[j]? = some span → ∀ r, r ∈ slice p.rows span ↔ (r, j) ∈ members

variable {shape : Shape} {members : Set (Nat × Nat)} {outcome : Except Error Pattern}

theorem canonical_of_members (h : ∀ p, outcome = .ok p →
    p.shape = shape ∧ ∀ r c, c < p.ncols → ((r, c) ∈ p.positions ↔ (r, c) ∈ members)) :
    Canonical shape members outcome := by
  intro p hp
  obtain ⟨rfl, hmembers⟩ := h p hp
  refine ⟨rfl, p.isCompressed, fun j span hspan r => ?_⟩
  have hcolumn : p.columns[j]? = some (slice p.rows span) := by
    rw [← map_slice_starts p, List.getElem?_map, hspan, Option.map_some]
  rw [← hmembers r j (List.getElem?_eq_some_iff.mp hcolumn).1, mem_positions, column,
    List.getD_eq_getElem?_getD, hcolumn, Option.getD_some]

theorem canonical_of_gives {fits : Prop} (h : Gives fits shape members outcome) :
    Canonical shape members outcome := by
  refine canonical_of_members fun p hp => ?_
  by_cases hfits : fits
  · obtain ⟨q, hq, hshape, hsupport⟩ := h.1 hfits
    obtain rfl : p = q := Except.ok.inj (hp.symm.trans hq)
    exact ⟨hshape, fun r c _ => by rw [← hsupport, mem_support]⟩
  · rw [h.2 hfits] at hp
    contradiction

theorem canonical_of_error {e : Error} (h : outcome = .error e) : Canonical shape members outcome := by
  intro p hp
  rw [h] at hp
  contradiction

theorem canonical_ite {fits : Prop} [Decidable fits] (hshape : p.shape = shape)
    (hmembers : ∀ r c, c < p.ncols → ((r, c) ∈ p.positions ↔ (r, c) ∈ members)) :
    Canonical shape members (if fits then .ok p else .error .tooLarge) := by
  refine canonical_of_members fun q hq => ?_
  split at hq
  · obtain rfl := Except.ok.inj hq
    exact ⟨hshape, hmembers⟩
  · contradiction

theorem canonical_denseOf (m n : Nat) : Canonical (m, n) {x | x.1 < m ∧ x.2 < n} (denseOf m n) :=
  canonical_ite (by simp [shape]) fun r c _ => mem_positions_dense

theorem canonical_emptyOf (m n : Nat) : Canonical (m, n) ∅ (emptyOf m n) := by
  refine canonical_ite (by simp [Pattern.shape, empty, Pattern.ncols]) fun r c hc => ?_
  have hcolumn : (empty m n).column c = [] := by
    rw [column, empty, List.getD_eq_getElem?_getD, List.getElem?_replicate]
    split <;> rfl
  rw [mem_positions, hcolumn]
  simp

theorem canonical_diagonalOf (n : Nat) :
    Canonical (n, n) {x | x.1 = x.2 ∧ x.2 < n} (diagonalOf n) := by
  refine canonical_ite (by simp [Pattern.shape, diagonal, Pattern.ncols]) fun r c hc => ?_
  have hlt : c < n := by simpa [diagonal, Pattern.ncols] using hc
  have hcolumn : (diagonal n).column c = [c] := by
    rw [column, diagonal, List.getD_eq_getElem?_getD, List.getElem?_map, List.getElem?_range hlt]
    rfl
  rw [mem_positions, hcolumn]
  simp [hlt]

theorem canonical_ofTriplets (m n : Nat) (rows cols : List Nat) :
    Canonical (m, n) {x | x ∈ rows.zip cols} (ofTriplets m n rows cols) := by
  by_cases hlength : rows.length = cols.length
  · by_cases hinside : ∀ x ∈ rows.zip cols, x.1 < m ∧ x.2 < n
    · exact canonical_of_gives (gives_ofTriplets hlength hinside)
    · intro p hp
      have hany : (rows.zip cols).any (fun x => decide (m ≤ x.1) || decide (n ≤ x.2)) = true := by
        by_contra hany
        refine hinside fun x hx => ?_
        rw [List.any_eq_true, not_exists] at hany
        have := hany x
        rw [not_and, Bool.or_eq_true, decide_eq_true_eq, decide_eq_true_eq] at this
        have := this hx
        omega
      rw [ofTriplets, if_neg (not_not.mpr hlength)] at hp
      split at hp
      · contradiction
      · rw [if_pos hany] at hp
        contradiction
  · exact canonical_of_error (if_pos hlength)

theorem canonical_unionOf (p q : Pattern) :
    Canonical p.shape (p.support ∪ q.support) (p.unionOf q) := by
  by_cases h : p.shape = q.shape
  · exact canonical_of_gives (gives_unionOf h)
  · exact canonical_of_error (dif_neg h)

theorem canonical_intersectionOf (p q : Pattern) :
    Canonical p.shape (p.support ∩ q.support) (p.intersectionOf q) := by
  by_cases h : p.shape = q.shape
  · exact canonical_of_gives (gives_intersectionOf h)
  · exact canonical_of_error (if_neg h)

theorem canonical_transposeOf (p : Pattern) :
    Canonical p.shape.swap {x | x.swap ∈ p.support} p.transposeOf :=
  canonical_ite (by simp [Pattern.shape]) fun r c _ =>
    mem_positions_transpose.trans mem_support.symm

theorem canonical_productOf (p q : Pattern) :
    Canonical (p.nrows, q.ncols) {x | ∃ k, (x.1, k) ∈ p.support ∧ (k, x.2) ∈ q.support}
      (p.productOf q) := by
  by_cases h : p.ncols = q.nrows
  · exact canonical_of_gives (gives_productOf h)
  · exact canonical_of_error (if_pos h)

/-- Parts that do not fit are put on top of each other only if that leaves no column. -/
theorem canonical_vertcat (parts : List Pattern) :
    Canonical ((parts.map Pattern.nrows).sum, parts.head?.elim 0 Pattern.ncols)
      {x | ∃ i part, parts[i]? = some part ∧ ∃ r, (r, x.2) ∈ part.support ∧
        x.1 = ((parts.take i).map Pattern.nrows).sum + r} (vertcat parts) := by
  by_cases h : ∀ part ∈ parts, part.ncols = parts.head?.elim 0 Pattern.ncols
  · exact canonical_of_gives (gives_vertcat h)
  · refine canonical_of_members fun p hp => ?_
    have hnone : parts.head?.elim 0 Pattern.ncols = 0 := by
      push Not at h
      rw [vertcat] at hp
      split at hp
      · contradiction
      · split at hp
        · contradiction
        · rename_i hfit
          exact Nat.eq_zero_of_not_pos fun hpos => hfit ⟨hpos, h⟩
    obtain rfl := MatrixBuilder.eq_stack_of_vertcat hp
    have hncols : (stack parts).ncols = parts.head?.elim 0 Pattern.ncols :=
      congrArg Prod.snd (shape_stack parts)
    exact ⟨shape_stack parts, fun r c hc => by omega⟩

theorem canonical_horzcat (parts : List Pattern) :
    Canonical (parts.head?.elim 0 Pattern.nrows, (parts.map Pattern.ncols).sum)
      {x | ∃ i part, parts[i]? = some part ∧ ∃ c, (x.1, c) ∈ part.support ∧
        x.2 = ((parts.take i).map Pattern.ncols).sum + c} (horzcat parts) := by
  by_cases h : ∀ part ∈ parts, part.nrows = parts.head?.elim 0 Pattern.nrows
  · exact canonical_of_gives (gives_horzcat h)
  · refine canonical_of_members fun p hp => absurd ?_ h
    obtain ⟨hshape, -, hrows⟩ := MatrixBuilder.beside_of_horzcat hp
    exact fun part hpart => (hrows part hpart).trans (congrArg Prod.fst hshape)

/-- **Lists are read if they obey the rules, and operations make such lists.** Lists that break a rule
are refused, as a broken precondition. -/
theorem canonical_operations :
    (∀ nrows ncols starts row, starts.length < countLimit → ∀ p,
      ofCompressed nrows ncols starts row = .ok p ↔
        IsCompressed nrows ncols starts row ∧ p.nrows = nrows ∧ p.starts = starts ∧ p.rows = row) ∧
    (∀ nrows ncols starts row, ¬ IsCompressed nrows ncols starts row →
      ∃ e : Error, e.IsBreach ∧ ofCompressed nrows ncols starts row = .error e) ∧
    (∀ m n, Canonical (m, n) {x | x.1 < m ∧ x.2 < n} (denseOf m n)) ∧
    (∀ m n, Canonical (m, n) ∅ (emptyOf m n)) ∧
    (∀ n, Canonical (n, n) {x | x.1 = x.2 ∧ x.2 < n} (diagonalOf n)) ∧
    (∀ m n rows cols, Canonical (m, n) {x | x ∈ rows.zip cols} (ofTriplets m n rows cols)) ∧
    (∀ p q : Pattern,
      Canonical p.shape (p.support ∪ q.support) (p.unionOf q) ∧
      Canonical p.shape (p.support ∩ q.support) (p.intersectionOf q) ∧
      Canonical p.shape.swap {x | x.swap ∈ p.support} p.transposeOf ∧
      Canonical (p.nrows, q.ncols) {x | ∃ k, (x.1, k) ∈ p.support ∧ (k, x.2) ∈ q.support}
        (p.productOf q)) ∧
    ∀ parts : List Pattern,
      Canonical ((parts.map Pattern.nrows).sum, parts.head?.elim 0 Pattern.ncols)
        {x | ∃ i part, parts[i]? = some part ∧ ∃ r, (r, x.2) ∈ part.support ∧
          x.1 = ((parts.take i).map Pattern.nrows).sum + r} (vertcat parts) ∧
      Canonical (parts.head?.elim 0 Pattern.nrows, (parts.map Pattern.ncols).sum)
        {x | ∃ i part, parts[i]? = some part ∧ ∃ c, (x.1, c) ∈ part.support ∧
          x.2 = ((parts.take i).map Pattern.ncols).sum + c} (horzcat parts) :=
  ⟨fun _ _ _ _ hcount _ => ofCompressed_eq_ok_iff hcount, fun _ _ _ _ => exists_error_ofCompressed,
    canonical_denseOf, canonical_emptyOf, canonical_diagonalOf, canonical_ofTriplets,
    fun p q => ⟨canonical_unionOf p q, canonical_intersectionOf p q, canonical_transposeOf p,
      canonical_productOf p q⟩,
    fun parts => ⟨canonical_vertcat parts, canonical_horzcat parts⟩⟩

/-- Three nonzeros in two columns; starts that point past the last row before they end at it; and the
sum of a diagonal and an empty pattern. -/
theorem canonical_operations_column :
    ([0, 1, 3].length < countLimit ∧ IsCompressed 3 2 [0, 1, 3] [1, 0, 2] ∧
      ofCompressed 3 2 [0, 1, 3] [1, 0, 2] = .ok (ofPositions 3 2 [(1, 0), (2, 1), (0, 1)])) ∧
    (¬ IsCompressed 3 2 [0, 4, 3] [0, 1, 2] ∧
      ∃ e : Error, e.IsBreach ∧ ofCompressed 3 2 [0, 4, 3] [0, 1, 2] = .error e) ∧
    (diagonal 2).unionOf (empty 2 2) = .ok (diagonal 2) ∧
      IsCompressed 2 2 (diagonal 2).starts (diagonal 2).rows :=
  ⟨⟨by decide, by decide, (canonical_operations.1 3 2 [0, 1, 3] [1, 0, 2] (by decide) _).mpr
      ⟨by decide, by decide, by decide, by decide⟩⟩,
    ⟨by decide, canonical_operations.2.1 3 2 [0, 4, 3] [0, 1, 2] (by decide)⟩,
    by decide, ((canonical_operations.2.2.2.2.2.2.1 (diagonal 2) (empty 2 2)).1 _ (by decide)).2.1⟩

end Pattern

end Fluxion
