import Fluxion.Proofs.Pattern.Positions
import Mathlib.Algebra.BigOperators.Group.List.Basic

/-!
# What the sweeps of a plan show

A sweep that seeds a group of columns shows, in each row, the sum of the entries of the group. If at
most one of them may be stored there, that one is shown. So a coloring is good for an entry if it
*isolates* it: no other column that may be stored in the row has the color of its column.

Greedy colorings of columns isolate every entry. Recovery of a symmetric matrix isolates each entry
or the one across the diagonal, whatever the coloring is.

## Main definitions

* `Coloring.Isolates` — only one of the columns of a color may be stored in a row
* `seeded` — the sum over a group
* `JacobianPlan.Shows` — a sweep of a plan shows an entry of a matrix

## Main results

* `Coloring.isolates_column`, `Coloring.isolates_identity` — colorings of columns isolate entries
* `Coloring.isolates_of_recover` — recovery finds isolated entries
* `JacobianPlan.shows_make` — **plans lose nothing**
-/

namespace Fluxion

/-! ### Colorings that isolate entries -/

namespace Coloring

variable {coloring : Coloring} {p : Pattern} {i j k s n : Nat}

/-- Of the columns that may be stored in row `i`, only `j` has color `s`. -/
def Isolates (coloring : Coloring) (p : Pattern) (s i j : Nat) : Prop :=
  coloring.color? j = some s ∧ ∀ k, (i, k) ∈ p.positions → coloring.color? k = some s → k = j

theorem Isolates.of_subset {q : Pattern} (h : coloring.Isolates q s i j)
    (hsubset : ∀ k, (i, k) ∈ p.positions → (i, k) ∈ q.positions) : coloring.Isolates p s i j :=
  ⟨h.1, fun k hk => h.2 k (hsubset k hk)⟩

theorem lt_of_color? (h : coloring.color? k = some s) : s < coloring.count :=
  coloring.below s (Array.mem_of_getElem? h)

/-- The groups are the sets of columns of one color. -/
theorem mem_groups : k ∈ coloring.groups.getD s [] ↔ coloring.color? k = some s := by
  rw [groups, List.getD_eq_getElem?_getD, Array.getElem?_toList, getElem?_buckets]
  by_cases hs : s < coloring.count
  · rw [if_pos hs, Option.getD_some, List.mem_filterMap]
    simp only [Prod.exists, List.mk_mem_zipIdx_iff_getElem?, Array.getElem?_toList,
      Option.ite_none_right_eq_some, Option.some.injEq]
    constructor
    · rintro ⟨c, j, hj, rfl, rfl⟩
      exact hj
    · intro hk
      exact ⟨s, k, hk, rfl, rfl⟩
  · rw [if_neg hs, Option.getD_none]
    constructor
    · exact fun h => absurd h List.not_mem_nil
    · exact fun h => absurd (lt_of_color? h) hs

theorem length_groups : coloring.groups.length = coloring.count := by
  rw [groups, Array.length_toList, size_buckets]

theorem color?_identity (hj : j < n) : (identity n).color? j = some j := by
  rw [color?, identity, Array.getElem?_range, if_pos hj]

theorem isolates_identity (hj : j < n) : (identity n).Isolates p j i j := by
  refine ⟨color?_identity hj, fun k _ hk => ?_⟩
  rw [color?, identity, Array.getElem?_range] at hk
  split at hk
  · exact Option.some.inj hk
  · exact absurd hk (by simp)

/-! ### Greedy colorings -/

section Greedy

variable {forbidden : Array Nat → List Nat}

@[simp] theorem size_greedy (n : Nat) : (greedy forbidden n).colors.size = n := by
  induction n with
  | zero => rfl
  | succ n ih => rw [greedy, extend, Array.size_push, ih]

/-- Colors that are given stay as they are. -/
theorem color?_greedy_of_le {m : Nat} (hj : j < m) (hmn : m ≤ n) :
    (greedy forbidden n).color? j = (greedy forbidden m).color? j := by
  induction n, hmn using Nat.le_induction with
  | base => rfl
  | succ n hmn ih =>
    rw [← ih, color?, greedy, extend, Array.getElem?_push, size_greedy,
      if_neg (Nat.ne_of_lt (Nat.lt_of_lt_of_le hj hmn))]
    rfl

/-- No column has a color that was forbidden when it got one. -/
theorem color?_greedy_notMem (hforbidden : ∀ colors, ∀ c ∈ forbidden colors, c ∈ colors)
    (hj : j < n) (hs : (greedy forbidden n).color? j = some s) :
    s ∉ forbidden (greedy forbidden j).colors := by
  rw [color?_greedy_of_le (Nat.lt_succ_self j) hj, color?, greedy, extend] at hs
  rw [Array.getElem?_push, size_greedy, if_pos rfl] at hs
  obtain rfl := Option.some.inj hs
  intro hmem
  have hbelow := (greedy forbidden j).below _ (hforbidden _ _ hmem)
  exact firstFree_notMem hbelow hmem

end Greedy

theorem mem_rowNeighbors {colors : Array Nat} :
    s ∈ rowNeighbors p.columns.toArray p.transpose.columns.toArray colors
      ↔ ∃ i k, (i, colors.size) ∈ p.positions ∧ (i, k) ∈ p.positions ∧ colors[k]? = some s := by
  simp only [rowNeighbors, List.mem_flatMap, List.mem_filterMap, Pattern.mem_columns_getD,
    Pattern.mem_positions_transpose]
  constructor
  · rintro ⟨i, hi, k, hk, hs⟩
    exact ⟨i, k, hi, hk, hs⟩
  · rintro ⟨i, k, hi, hk, hs⟩
    exact ⟨i, hi, k, hk, hs⟩

theorem column_proper_of_lt (hjk : j < k) (hj : (i, j) ∈ p.positions) (hk : (i, k) ∈ p.positions)
    (hcolor : (column p).color? j = some s) : (column p).color? k ≠ some s := by
  intro hk'
  have hkn := Pattern.column_lt_of_mem_positions hk
  refine color?_greedy_notMem (fun colors c hc => ?_) hkn hk' ?_
  · obtain ⟨-, k, -, -, hget⟩ := mem_rowNeighbors.mp hc
    exact Array.mem_of_getElem? hget
  · refine mem_rowNeighbors.mpr ⟨i, j, by rwa [size_greedy], hj, ?_⟩
    rw [column, color?_greedy_of_le hjk hkn.le] at hcolor
    exact hcolor

/-- Columns that share a row have different colors. -/
theorem isolates_column (hj : (i, j) ∈ p.positions) :
    ∃ s, (column p).Isolates p s i j := by
  have hlt : j < (column p).colors.size := by
    rw [column, size_greedy]
    exact Pattern.column_lt_of_mem_positions hj
  refine ⟨(column p).colors[j], Array.getElem?_eq_getElem hlt, fun k hk hcolor => ?_⟩
  have hcj : (column p).color? j = some (column p).colors[j] := Array.getElem?_eq_getElem hlt
  rcases Nat.lt_trichotomy k j with hkj | rfl | hjk
  · exact absurd hcj (column_proper_of_lt hkj hk hj hcolor)
  · rfl
  · exact absurd hcolor (column_proper_of_lt hjk hj hk hcj)

/-! ### Recovery of symmetric matrices -/

theorem onlyOne_eq_true {ks : List Nat} (h : onlyOne coloring s j ks = .ok true) :
    ∀ k ∈ ks, coloring.color? k = some s → k = j := by
  induction ks with
  | nil => simp
  | cons k rest ih =>
    rw [onlyOne] at h
    intro k' hk' hcolor
    split at h
    · rename_i hkj
      rcases List.mem_cons.mp hk' with rfl | hk'
      · exact hkj
      · exact ih h k' hk' hcolor
    · split at h
      · contradiction
      · rename_i c hc
        split at h
        · simp at h
        · rename_i hcs
          rcases List.mem_cons.mp hk' with rfl | hk'
          · rw [hc] at hcolor
            exact absurd (Option.some.inj hcolor) hcs
          · exact ih h k' hk' hcolor

theorem isolates_of_sweepFor? (hsym : ∀ i j, (i, j) ∈ p.positions → (j, i) ∈ p.positions)
    (h : coloring.sweepFor? p.columns.toArray i j = .ok (some s)) : coloring.Isolates p s i j := by
  rw [sweepFor?] at h
  split at h
  · contradiction
  · rename_i c hc
    split at h
    · contradiction
    · rename_i alone halone
      rw [Except.ok.injEq, Option.ite_none_right_eq_some, Option.some.injEq] at h
      obtain ⟨rfl, rfl⟩ := h
      refine ⟨hc, fun k hk => onlyOne_eq_true halone k ?_⟩
      exact List.mem_append_left _ (Pattern.mem_columns_getD.mpr (hsym i k hk))

/-- A place that was found isolates the entry, or the one across the diagonal. -/
theorem isolates_of_readEntry (hsym : ∀ i j, (i, j) ∈ p.positions → (j, i) ∈ p.positions)
    (h : coloring.readEntry p.columns.toArray i j = .ok (some (s, k))) :
    k = i ∧ coloring.Isolates p s i j ∨ k = j ∧ coloring.Isolates p s j i := by
  rw [readEntry] at h
  split at h
  · contradiction
  · rename_i c hc
    simp only [Except.ok.injEq, Option.some.injEq, Prod.mk.injEq] at h
    obtain ⟨rfl, rfl⟩ := h
    exact .inl ⟨rfl, isolates_of_sweepFor? hsym hc⟩
  · split at h
    · contradiction
    · rename_i found hfound
      rw [Except.ok.injEq, Option.map_eq_some_iff] at h
      obtain ⟨c, rfl, heq⟩ := h
      obtain ⟨rfl, rfl⟩ := Prod.mk.injEq .. ▸ heq
      exact .inr ⟨rfl, isolates_of_sweepFor? hsym hfound⟩

theorem forall₂_of_readEntries {columns : Array (List Nat)} {entries places : List (Nat × Nat)}
    (h : coloring.readEntries columns entries = .ok (some places)) :
    List.Forall₂ (fun entry place =>
      coloring.readEntry columns entry.1 entry.2 = .ok (some place)) entries places := by
  induction entries generalizing places with
  | nil =>
    rw [readEntries, Except.ok.injEq, Option.some.injEq] at h
    rw [← h]
    exact .nil
  | cons entry rest ih =>
    obtain ⟨i, j⟩ := entry
    rw [readEntries] at h
    split at h
    · contradiction
    · simp at h
    · rename_i place hplace
      split at h
      · contradiction
      · rename_i found hfound
        rw [Except.ok.injEq, Option.map_eq_some_iff] at h
        obtain ⟨others, rfl, rfl⟩ := h
        exact .cons hplace (ih hfound)

theorem mem_symmetrized (h : p.nrows = p.ncols) :
    (i, j) ∈ (p.symmetrized h).positions ↔ (i, j) ∈ p.positions ∨ (j, i) ∈ p.positions := by
  rw [Pattern.symmetrized, Pattern.mem_positions_union, Pattern.mem_positions_transpose]

/-- Every entry of a recovered matrix is isolated, or the one across the diagonal is. -/
theorem isolates_of_recover {lookup : List (Nat × Nat)}
    (h : recover p coloring = .ok (some lookup)) :
    List.Forall₂ (fun entry place =>
      place.2 = entry.1 ∧ coloring.Isolates p place.1 entry.1 entry.2 ∨
      place.2 = entry.2 ∧ coloring.Isolates p place.1 entry.2 entry.1) p.positions lookup := by
  rw [recover] at h
  split at h
  · rename_i hsquare
    refine (forall₂_of_readEntries h).imp ?_
    rintro ⟨i, j⟩ ⟨s, k⟩ hread
    have hsubset : ∀ i k, (i, k) ∈ p.positions → (i, k) ∈ (p.symmetrized hsquare).positions :=
      fun i k hk => (mem_symmetrized hsquare).mpr (.inl hk)
    have hsym : ∀ i j, (i, j) ∈ (p.symmetrized hsquare).positions →
        (j, i) ∈ (p.symmetrized hsquare).positions := by
      intro i j hij
      rw [mem_symmetrized] at hij ⊢
      exact hij.symm
    rcases isolates_of_readEntry hsym hread with ⟨hk, hisolates⟩ | ⟨hk, hisolates⟩
    · exact .inl ⟨hk, hisolates.of_subset (hsubset i)⟩
    · exact .inr ⟨hk, hisolates.of_subset (hsubset j)⟩
  · contradiction

end Coloring

/-! ### Sums over groups -/

section Sums

variable {V : Type*} [AddCommMonoid V]

/-- The sum over those of `n` components that are in a group. -/
def seeded (n : Nat) (group : List Nat) (f : Nat → V) : V :=
  (((List.range n).filter (· ∈ group)).map f).sum

theorem seeded_eq {n j : Nat} {group : List Nat} {f : Nat → V} (hj : j < n) (hmem : j ∈ group)
    (hother : ∀ k < n, k ∈ group → k ≠ j → f k = 0) : seeded n group f = f j := by
  have hj' : j ∈ (List.range n).filter (· ∈ group) :=
    List.mem_filter.mpr ⟨List.mem_range.mpr hj, decide_eq_true hmem⟩
  have hcount := List.count_eq_one_of_mem (List.nodup_range.filter _) hj'
  rw [seeded, List.sum_map_eq_nsmul_single j, hcount, one_nsmul]
  intro k hkj hk
  rw [List.mem_filter, List.mem_range, decide_eq_true_eq] at hk
  exact hother k hk.1 hk.2 hkj

/-- A sweep shows the entry that the coloring isolates. -/
theorem Coloring.Isolates.seeded_eq {coloring : Coloring} {p : Pattern} {s i j n : Nat}
    (h : coloring.Isolates p s i j) (hj : j < n) {f : Nat → V}
    (hsupport : ∀ k, (i, k) ∉ p.positions → f k = 0) :
    seeded n (coloring.groups.getD s []) f = f j := by
  refine Fluxion.seeded_eq hj (Coloring.mem_groups.mpr h.1) fun k _ hk hkj => ?_
  by_contra hne
  have hmem : (i, k) ∈ p.positions := by
    by_contra hmem
    exact hne (hsupport k hmem)
  exact hkj (h.2 k hmem (Coloring.mem_groups.mp hk))

/-! ### Plans -/

namespace JacobianPlan

/-- What sweep `s` of a plan shows in component `k`, if the matrix is `J`. -/
def shown (plan : JacobianPlan) (p : Pattern) (J : Nat → Nat → V) (s k : Nat) : V :=
  match plan.direction with
  | .forward => seeded p.ncols (plan.sweeps.getD s []) fun j => J k j
  | .reverse => seeded p.nrows (plan.sweeps.getD s []) fun i => J i k

/-- The number of components that a sweep of a plan has. -/
def components (plan : JacobianPlan) (p : Pattern) : Nat :=
  match plan.direction with
  | .forward => p.nrows
  | .reverse => p.ncols

/-- The plan shows the entry at a position in the place. -/
def Shows (plan : JacobianPlan) (p : Pattern) (J : Nat → Nat → V) (position place : Nat × Nat) :
    Prop :=
  place.1 < plan.sweeps.length ∧ place.2 < plan.components p ∧
    plan.shown p J place.1 place.2 = J position.1 position.2

variable {p : Pattern} {J : Nat → Nat → V}

theorem shows_forward {coloring : Coloring} (lookup : List (Nat × Nat)) {s i j : Nat}
    (h : coloring.Isolates p s i j) (hi : i < p.nrows) (hj : j < p.ncols)
    (hsupport : ∀ i j, (i, j) ∉ p.positions → J i j = 0) :
    (JacobianPlan.mk .forward coloring.groups lookup).Shows p J (i, j) (s, i) :=
  ⟨by rw [Coloring.length_groups]; exact Coloring.lt_of_color? h.1, hi,
    h.seeded_eq hj fun k => hsupport i k⟩

theorem shows_reverse {coloring : Coloring} {lookup : List (Nat × Nat)} {s i j : Nat}
    (h : coloring.Isolates p.transpose s j i) (hi : i < p.nrows) (hj : j < p.ncols)
    (hsupport : ∀ i j, (i, j) ∉ p.positions → J i j = 0) :
    (JacobianPlan.mk .reverse coloring.groups lookup).Shows p J (i, j) (s, j) :=
  ⟨by rw [Coloring.length_groups]; exact Coloring.lt_of_color? h.1, hj,
    h.seeded_eq (f := fun k => J k j) hi fun k hk =>
      hsupport k j fun hmem => hk (Pattern.mem_positions_transpose.mpr hmem)⟩

/-- The coloring of columns that a plan without symmetry uses. -/
theorem isolates_columns (options : FunctionOptions) {i j : Nat} (hij : (i, j) ∈ p.positions) :
    ∃ s, (if options.compress then Coloring.column p else Coloring.identity p.ncols).Isolates
      p s i j := by
  split
  · exact Coloring.isolates_column hij
  · exact ⟨j, Coloring.isolates_identity (Pattern.column_lt_of_mem_positions hij)⟩

theorem shows_general (options : FunctionOptions)
    (hsupport : ∀ i j, (i, j) ∉ p.positions → J i j = 0) :
    List.Forall₂ ((general p options).Shows p J) p.positions (general p options).lookup := by
  simp only [general]
  split
  · rw [List.forall₂_map_right_iff]
    refine List.forall₂_same.mpr ?_
    rintro ⟨i, j⟩ hij
    obtain ⟨s, hs⟩ := isolates_columns options hij
    rw [hs.1, Option.getD_some]
    exact shows_forward _ hs (Pattern.row_lt_of_mem_positions hij)
      (Pattern.column_lt_of_mem_positions hij) hsupport
  · rw [List.forall₂_map_right_iff]
    refine List.forall₂_same.mpr ?_
    rintro ⟨i, j⟩ hij
    obtain ⟨s, hs⟩ := isolates_columns options (Pattern.mem_positions_transpose.mpr hij)
    rw [Pattern.ncols_transpose] at hs
    rw [hs.1, Option.getD_some]
    exact shows_reverse hs (Pattern.row_lt_of_mem_positions hij)
      (Pattern.column_lt_of_mem_positions hij) hsupport

theorem shows_symmetric {options : FunctionOptions} {hsquare : p.nrows = p.ncols}
    {plan : JacobianPlan} (hplan : symmetric? p options hsquare = some plan)
    (hsupport : ∀ i j, (i, j) ∉ p.positions → J i j = 0) (hsymmetric : ∀ i j, J i j = J j i) :
    List.Forall₂ (plan.Shows p J) p.positions plan.lookup := by
  simp only [symmetric?] at hplan
  split at hplan
  · rename_i lookup hlookup
    obtain rfl := Option.some.inj hplan
    have hrecover := Coloring.isolates_of_recover hlookup
    have hmem : ∀ entry ∈ p.positions, entry.1 < p.nrows ∧ entry.2 < p.ncols := fun entry h =>
      ⟨Pattern.row_lt_of_mem_positions h, Pattern.column_lt_of_mem_positions h⟩
    refine ((List.forall₂_and_left _ _).mpr ⟨hmem, hrecover⟩).imp ?_
    rintro ⟨i, j⟩ ⟨s, k⟩ ⟨⟨hi, hj⟩, ⟨rfl, hisolates⟩ | ⟨rfl, hisolates⟩⟩
    · exact shows_forward lookup hisolates hi hj hsupport
    · have hshows := shows_forward lookup hisolates (by rw [hsquare]; exact hj)
        (by rw [← hsquare]; exact hi) hsupport
      exact ⟨hshows.1, hshows.2.1, hshows.2.2.trans (hsymmetric _ _)⟩
  · contradiction

/-- **Plans lose nothing.** Every entry of a matrix with the pattern is shown in the place that the
plan says, if the matrix is symmetric whenever the plan was told so. -/
theorem shows_make (options : FunctionOptions) {symmetric : Bool}
    (hsupport : ∀ i j, (i, j) ∉ p.positions → J i j = 0)
    (hsymmetric : symmetric = true → p.nrows = p.ncols → ∀ i j, J i j = J j i) :
    List.Forall₂ ((make p options symmetric).Shows p J) p.positions
      (make p options symmetric).lookup := by
  rw [make]
  split
  · rename_i hsquare
    split
    · rename_i htold
      rcases hplan : symmetric? p options hsquare with _ | plan
      · exact shows_general options hsupport
      · exact shows_symmetric hplan hsupport (hsymmetric htold hsquare)
    · exact shows_general options hsupport
  · exact shows_general options hsupport

end JacobianPlan

end Sums

end Fluxion
