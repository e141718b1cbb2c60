import Fluxion.Proofs.Pattern.Blocks
import Mathlib.Data.Set.Basic

/-!
# The algebra of patterns as an algebra of sets

Each operation on patterns is a loop of its own over compressed columns. What all of them do is said
once, by the set of positions at which an entry is found: the operation answers with the pattern of
the given shape that has a set of positions, and there is only one such pattern.

Four operations make a table or a count that no pattern among their arguments has: a product marks
the rows of its left factor, a pattern of triplets has its column starts before a triplet is read,
the rows of parts on top of each other are added up, and parts side by side have all of their columns
in one table. Shapes say nothing about these sizes, so an operation on fitting shapes can still be
refused. `Gives` states both answers, and the size decides.

Offsets of joined parts are sums over the parts in front, `List.take`. The lemmas on columns are
stated for any offset, since the induction is on the parts.

## Main definitions

* `Pattern.support` — the positions at which an entry is found
* `Pattern.Gives` — the outcome of an operation that makes a pattern

## Main results

* `Pattern.eq_of_support` — a pattern is its shape and its support
* `Pattern.isSubset_iff` — counting what is found decides inclusion
* `Pattern.mem_positions_stack`, `Pattern.mem_column_beside` — the members of joined parts
* `Pattern.set_algebra` — **the pattern algebra is set algebra on positions**
-/

namespace Fluxion

namespace Pattern

variable {p q : Pattern} {parts : List Pattern} {r c : Nat}

/-- The positions at which an entry is found. -/
def support (p : Pattern) : Set (Nat × Nat) := {x | (p.find? x.1 x.2).isSome}

theorem mem_support {x : Nat × Nat} : x ∈ p.support ↔ x ∈ p.positions := by
  show (p.find? x.1 x.2).isSome ↔ _
  rw [Option.isSome_iff_ne_none, Ne, find?_eq_none_iff, not_not]

/-- The outcome of an operation that makes a pattern: the pattern with a shape and a support where
its size fits, and a refusal of the size where it does not. -/
def Gives (fits : Prop) (shape : Shape) (support : Set (Nat × Nat))
    (outcome : Except Error Pattern) : Prop :=
  (fits → ∃ p, outcome = .ok p ∧ p.shape = shape ∧ p.support = support) ∧
    (¬ fits → outcome = .error .tooLarge)

/-- An operation that never refuses a size. -/
theorem gives_of_ok {outcome : Except Error Pattern} {shape : Shape} {support : Set (Nat × Nat)}
    (h : outcome = .ok p) (hshape : p.shape = shape)
    (hsupport : ∀ r c, (r, c) ∈ p.positions ↔ (r, c) ∈ support) :
    Gives True shape support outcome :=
  ⟨fun _ => ⟨p, h, hshape, Set.ext fun x => mem_support.trans (hsupport x.1 x.2)⟩,
    fun hfits => absurd trivial hfits⟩

/-- An operation that refuses a size first. -/
theorem gives_ite {fits : Prop} [Decidable fits] {outcome : Except Error Pattern} {shape : Shape}
    {support : Set (Nat × Nat)} (h : Gives True shape support outcome) :
    Gives (¬ fits) shape support (if fits then .error .tooLarge else outcome) := by
  constructor
  · intro hfits
    rw [if_neg hfits]
    exact h.1 trivial
  · intro hfits
    rw [if_pos (not_not.mp hfits)]

/-! ### One pattern for a shape and a support -/

theorem columns_eq_map_range (p : Pattern) : p.columns = (List.range p.ncols).map p.column := by
  refine List.ext_getElem (by simp [ncols]) fun j hj _ => ?_
  rw [List.getElem_map, List.getElem_range, column, List.getD_eq_getElem _ _ hj]

theorem column_eq_of_positions (h : ∀ r c, (r, c) ∈ p.positions ↔ (r, c) ∈ q.positions)
    (j : Nat) : p.column j = q.column j := by
  refine (p.column_isColumn j).1.eq_of_mem_iff (q.column_isColumn j).1 fun r => ?_
  rw [← mem_positions, ← mem_positions]
  exact h r j

/-- **A pattern is its shape and its support.** -/
theorem eq_of_support (hshape : p.shape = q.shape) (hsupport : p.support = q.support) : p = q := by
  have hmem : ∀ r c, (r, c) ∈ p.positions ↔ (r, c) ∈ q.positions := fun r c => by
    rw [← mem_support, ← mem_support, hsupport]
  obtain ⟨hrows, hcols⟩ := Prod.mk.inj hshape
  rw [Pattern.mk.injEq, columns_eq_map_range p, columns_eq_map_range q, hcols]
  exact ⟨hrows, List.map_congr_left fun j _ => column_eq_of_positions hmem j⟩

/-! ### Inclusion -/

/-- The positions of one pattern that another has as well. -/
theorem countP_locate (p q : Pattern) :
    (p.locate q).countP Option.isSome = (q.positions.filter (· ∈ p.positions)).length := by
  rw [locate_eq_map_find?, List.countP_map, List.countP_eq_length_filter]
  refine congrArg List.length (List.filter_congr fun x _ => ?_)
  rw [Bool.eq_iff_iff, decide_eq_true_eq, ← mem_support]
  exact Iff.rfl

/-- Positions without repetition that all belong to a pattern are all of its positions as soon as
there are as many. -/
theorem subset_iff_length_filter :
    (q.positions.filter (· ∈ p.positions)).length = p.nnz ↔ ∀ x ∈ p.positions, x ∈ q.positions := by
  have hcommon : (q.positions.filter (· ∈ p.positions)).Nodup := q.nodup_positions.filter _
  constructor
  · intro hlength x hx
    have hsub : (q.positions.filter (· ∈ p.positions)).Subperm p.positions :=
      List.subperm_of_subset hcommon fun y hy => by simpa using (List.mem_filter.mp hy).2
    have hperm := hsub.perm_of_length_le (Nat.le_of_eq hlength.symm)
    exact (List.mem_filter.mp (hperm.mem_iff.mpr hx)).1
  · intro hsub
    have hext := List.perm_ext_iff_of_nodup hcommon p.nodup_positions
    refine (hext.mpr fun x => ?_).length_eq
    rw [List.mem_filter, decide_eq_true_eq]
    exact ⟨And.right, fun hx => ⟨hsub x hx, hx⟩⟩

/-- **Counting what is found decides inclusion.** -/
theorem isSubset_iff : p.isSubset q = true ↔ p.shape = q.shape ∧ p.support ⊆ q.support := by
  rw [isSubset, Bool.and_eq_true, beq_iff_eq, beq_iff_eq, countP_locate, subset_iff_length_filter]
  refine and_congr_right fun _ => forall_congr' fun x => ?_
  rw [mem_support, mem_support]

/-! ### Parts on top of each other -/

theorem mem_stackColumn_iff {j offset x : Nat} :
    x ∈ stackColumn j offset parts ↔ ∃ i part, parts[i]? = some part ∧
      ∃ r, (r, j) ∈ part.positions ∧ x = offset + ((parts.take i).map nrows).sum + r := by
  induction parts generalizing offset with
  | nil => simp [stackColumn]
  | cons part rest ih =>
    rw [stackColumn, List.mem_append, ih, List.mem_map]
    constructor
    · rintro (⟨r, hr, rfl⟩ | ⟨i, q, hq, r, hr, rfl⟩)
      · exact ⟨0, part, rfl, r, mem_positions.mpr hr, by simp [Nat.add_comm]⟩
      · exact ⟨i + 1, q, hq, r, hr, by simp [Nat.add_assoc]⟩
    · rintro ⟨i, q, hq, r, hr, rfl⟩
      cases i with
      | zero =>
        obtain rfl : part = q := Option.some.inj hq
        exact .inl ⟨r, mem_positions.mp hr, by simp [Nat.add_comm]⟩
      | succ i => exact .inr ⟨i, q, hq, r, hr, by simp [Nat.add_assoc]⟩

/-- Each part lies below the rows of the parts in front. -/
theorem mem_positions_stack (hcols : ∀ part ∈ parts, part.ncols = parts.head?.elim 0 ncols) :
    (r, c) ∈ (stack parts).positions ↔ ∃ i part, parts[i]? = some part ∧
      ∃ s, (s, c) ∈ part.positions ∧ r = ((parts.take i).map nrows).sum + s := by
  have hcolumn : (stack parts).column c
      = if c < parts.head?.elim 0 ncols then stackColumn c 0 parts else [] := by
    rw [column, stack, List.getD_eq_getElem?_getD, List.getElem?_map]
    split
    · rename_i hc
      rw [List.getElem?_range hc]
      rfl
    · rename_i hc
      rw [List.getElem?_eq_none (by simpa using hc)]
      rfl
  rw [mem_positions, hcolumn]
  split
  · rw [mem_stackColumn_iff]
    simp only [Nat.zero_add]
  · rename_i hc
    refine ⟨fun h => absurd h List.not_mem_nil, ?_⟩
    rintro ⟨i, part, hpart, s, hs, -⟩
    have := column_lt_of_mem_positions hs
    rw [hcols part (List.mem_of_getElem? hpart)] at this
    contradiction

/-! ### Parts side by side -/

/-- Each part lies behind the columns of the parts in front. -/
theorem mem_column_beside {j : Nat} :
    r ∈ (parts.flatMap columns).getD j [] ↔ ∃ i part, parts[i]? = some part ∧
      ∃ c, (r, c) ∈ part.positions ∧ j = ((parts.take i).map ncols).sum + c := by
  induction parts generalizing j with
  | nil => simp
  | cons part rest ih =>
    rw [List.flatMap_cons]
    by_cases hj : j < part.ncols
    · rw [List.getD_append _ _ _ _ hj]
      constructor
      · intro hr
        exact ⟨0, part, rfl, j, mem_positions.mpr hr, by simp⟩
      · rintro ⟨i, q, hq, c, hr, rfl⟩
        cases i with
        | zero =>
          obtain rfl : part = q := Option.some.inj hq
          simpa [column] using mem_positions.mp hr
        | succ i =>
          simp only [List.take_succ_cons, List.map_cons, List.sum_cons] at hj
          omega
    · have hj : part.columns.length ≤ j := Nat.le_of_not_lt hj
      rw [List.getD_append_right _ _ _ _ hj, ih]
      constructor
      · rintro ⟨i, q, hq, c, hr, heq⟩
        refine ⟨i + 1, q, hq, c, hr, ?_⟩
        simp only [List.take_succ_cons, List.map_cons, List.sum_cons, ncols]
        omega
      · rintro ⟨i, q, hq, c, hr, rfl⟩
        cases i with
        | zero =>
          obtain rfl : part = q := Option.some.inj hq
          have := column_lt_of_mem_positions hr
          simp only [List.take_zero, List.map_nil, List.sum_nil, Nat.zero_add] at hj
          rw [ncols] at this
          omega
        | succ i =>
          refine ⟨i, q, hq, c, hr, ?_⟩
          simp only [List.take_succ_cons, List.map_cons, List.sum_cons]
          rw [ncols]
          omega

/-! ### The operations -/

/-- What is entered is the pairs that are given. -/
theorem gives_ofTriplets {nrows ncols : Nat} {rows cols : List Nat}
    (hlength : rows.length = cols.length)
    (hinside : ∀ x ∈ rows.zip cols, x.1 < nrows ∧ x.2 < ncols) :
    Gives (ncols + 1 < tableLimit) (nrows, ncols) {x | x ∈ rows.zip cols}
      (ofTriplets nrows ncols rows cols) := by
  have hany : ¬ (rows.zip cols).any
      (fun x => decide (nrows ≤ x.1) || decide (ncols ≤ x.2)) = true := by
    rw [List.any_eq_true]
    rintro ⟨x, hx, hout⟩
    have := hinside x hx
    rw [Bool.or_eq_true, decide_eq_true_eq, decide_eq_true_eq] at hout
    omega
  rw [ofTriplets, if_neg (not_not.mpr hlength), ← Nat.not_le]
  refine gives_ite (gives_of_ok (if_neg hany) (by simp [shape]) fun r c => ?_)
  rw [mem_positions_ofPositions]
  exact ⟨fun h => h.2.2, fun h => ⟨(hinside _ h).1, (hinside _ h).2, h⟩⟩

theorem gives_unionOf (h : p.shape = q.shape) :
    Gives True p.shape (p.support ∪ q.support) (p.unionOf q) := by
  have hcols : p.columns.length = q.columns.length := congrArg Prod.snd h
  refine gives_of_ok (dif_pos h) (by simp [shape, union, ncols, hcols]) fun r c => ?_
  rw [mem_positions_union, Set.mem_union, mem_support, mem_support]

theorem gives_intersectionOf (h : p.shape = q.shape) :
    Gives True p.shape (p.support ∩ q.support) (p.intersectionOf q) := by
  have hcols : p.columns.length = q.columns.length := congrArg Prod.snd h
  refine gives_of_ok (if_pos h) (by simp [shape, intersection, ncols, hcols]) fun r c => ?_
  rw [mem_positions_intersection, Set.mem_inter_iff, mem_support, mem_support]

theorem gives_productOf (h : p.ncols = q.nrows) :
    Gives (p.nrows < tableLimit) (p.nrows, q.ncols)
      {x | ∃ k, (x.1, k) ∈ p.support ∧ (k, x.2) ∈ q.support} (p.productOf q) := by
  rw [productOf, if_neg (not_not.mpr h), ← Nat.not_le]
  refine gives_ite (gives_of_ok rfl (by simp [shape, product, ncols]) fun r c => ?_)
  rw [mem_positions_product]
  simp only [Set.mem_ofPred_eq, mem_support]

theorem gives_vertcat (h : ∀ part ∈ parts, part.ncols = parts.head?.elim 0 ncols) :
    Gives ((parts.map nrows).sum < countLimit) ((parts.map nrows).sum, parts.head?.elim 0 ncols)
      {x | ∃ i part, parts[i]? = some part ∧ ∃ r, (r, x.2) ∈ part.support ∧
        x.1 = ((parts.take i).map nrows).sum + r} (vertcat parts) := by
  have hfit : ¬ (0 < parts.head?.elim 0 ncols ∧
      ∃ part ∈ parts, part.ncols ≠ parts.head?.elim 0 ncols) := by
    rintro ⟨-, part, hpart, hne⟩
    exact hne (h part hpart)
  rw [vertcat, totalRows_eq_sum, ← Nat.not_le]
  refine gives_ite (gives_of_ok (if_neg hfit) (shape_stack parts) fun r c => ?_)
  rw [mem_positions_stack h]
  simp only [Set.mem_ofPred_eq, mem_support]

theorem gives_horzcat (h : ∀ part ∈ parts, part.nrows = parts.head?.elim 0 nrows) :
    Gives ((parts.map ncols).sum + 1 < tableLimit) (parts.head?.elim 0 nrows, (parts.map ncols).sum)
      {x | ∃ i part, parts[i]? = some part ∧ ∃ c, (x.1, c) ∈ part.support ∧
        x.2 = ((parts.take i).map ncols).sum + c} (horzcat parts) := by
  rw [horzcat, totalColumns_eq_sum, ← Nat.not_le]
  refine gives_ite (gives_of_ok (dif_pos h) ?_ fun r c => ?_)
  · rw [shape, ncols, List.length_flatMap]
    rfl
  · rw [mem_positions]
    refine mem_column_beside.trans ?_
    simp only [Set.mem_ofPred_eq, mem_support]

/-- A part that is given several times. -/
theorem sum_ncols_replicate (n : Nat) (p : Pattern) :
    ((List.replicate n p).map ncols).sum = n * p.ncols := by
  rw [List.map_replicate, List.sum_replicate_nat]

theorem horzcat_of_large (h : tableLimit ≤ (parts.map ncols).sum + 1) :
    horzcat parts = .error .tooLarge :=
  if_pos (totalColumns_eq_sum parts ▸ h)

/-- An entry for each nonzero of the target: what is found at its position. -/
theorem exists_projectMap (h : p.shape = q.shape) :
    ∃ map, p.projectMap q = .ok map ∧ map.length = q.nnz ∧
      ∀ (t : Nat) r c, q.positions[t]? = some (r, c) → map[t]? = some (p.find? r c) := by
  refine ⟨p.locate q, if_pos h, length_locate p q, fun t r c ht => ?_⟩
  rw [locate_eq_map_find?, List.getElem?_map, ht]
  rfl

theorem eq_head_of_agree {count : Pattern → Nat}
    (h : ∀ a ∈ parts, ∀ b ∈ parts, count a = count b) :
    ∀ part ∈ parts, count part = parts.head?.elim 0 count := by
  cases parts with
  | nil => exact fun _ hpart => absurd hpart List.not_mem_nil
  | cons first rest => exact fun part hpart => h part hpart first List.mem_cons_self

/-- **The pattern algebra is set algebra on positions.** On arguments that fit, each operation gives
the pattern with the set of positions that its name says, and refuses nothing but a size. -/
theorem set_algebra :
    (∀ nrows ncols rows cols, rows.length = cols.length →
      (∀ x ∈ rows.zip cols, x.1 < nrows ∧ x.2 < ncols) →
      Gives (ncols + 1 < tableLimit) (nrows, ncols) {x | x ∈ rows.zip cols}
        (ofTriplets nrows ncols rows cols)) ∧
    (∀ p q : Pattern, p.shape = q.shape →
      Gives True p.shape (p.support ∪ q.support) (p.unionOf q) ∧
      Gives True p.shape (p.support ∩ q.support) (p.intersectionOf q) ∧
      ∃ map, p.projectMap q = .ok map ∧ map.length = q.nnz ∧
        ∀ (t : Nat) r c, q.positions[t]? = some (r, c) → map[t]? = some (p.find? r c)) ∧
    (∀ p q : Pattern, p.isSubset q = true ↔ p.shape = q.shape ∧ p.support ⊆ q.support) ∧
    (∀ p q : Pattern, p.ncols = q.nrows →
      Gives (p.nrows < tableLimit) (p.nrows, q.ncols)
        {x | ∃ k, (x.1, k) ∈ p.support ∧ (k, x.2) ∈ q.support} (p.productOf q)) ∧
    (∀ parts : List Pattern, (∀ a ∈ parts, ∀ b ∈ parts, a.ncols = b.ncols) →
      Gives ((parts.map nrows).sum < countLimit) ((parts.map nrows).sum, parts.head?.elim 0 ncols)
        {x | ∃ i part, parts[i]? = some part ∧ ∃ r, (r, x.2) ∈ part.support ∧
          x.1 = ((parts.take i).map nrows).sum + r} (vertcat parts)) ∧
    (∀ parts : List Pattern, (∀ a ∈ parts, ∀ b ∈ parts, a.nrows = b.nrows) →
      Gives ((parts.map ncols).sum + 1 < tableLimit)
        (parts.head?.elim 0 nrows, (parts.map ncols).sum)
        {x | ∃ i part, parts[i]? = some part ∧ ∃ c, (x.1, c) ∈ part.support ∧
          x.2 = ((parts.take i).map ncols).sum + c} (horzcat parts)) ∧
    ∀ p q : Pattern, p.shape = q.shape → p.support = q.support → p = q := by
  refine ⟨fun _ _ _ _ => gives_ofTriplets, fun p q h => ?_, fun _ _ => isSubset_iff,
    fun _ _ => gives_productOf, fun _ h => gives_vertcat (eq_head_of_agree h),
    fun _ h => gives_horzcat (eq_head_of_agree h), fun _ _ => eq_of_support⟩
  exact ⟨gives_unionOf h, gives_intersectionOf h, exists_projectMap h⟩

/-- A diagonal times a column, on top of a row and beside a column, and entries given twice. -/
theorem set_algebra_diagonal :
    (diagonal 2).ncols = (dense 2 1).nrows ∧
    Gives (2 < tableLimit) (2, 1)
      {x | ∃ k, (x.1, k) ∈ (diagonal 2).support ∧ (k, x.2) ∈ (dense 2 1).support}
      ((diagonal 2).productOf (dense 2 1)) ∧
    Gives (3 < tableLimit) (3, 2) {x | x ∈ [(2, 0), (0, 0), (2, 0), (1, 1)]}
      (ofTriplets 3 2 [2, 0, 2, 1] [0, 0, 0, 1]) ∧
    (diagonal 2).shape = (dense 2 2).shape ∧
    Gives True (2, 2) ((diagonal 2).support ∪ (dense 2 2).support)
      ((diagonal 2).unionOf (dense 2 2)) ∧
    Gives (3 < countLimit) (3, 2)
      {x | ∃ i part, [diagonal 2, dense 1 2][i]? = some part ∧ ∃ r, (r, x.2) ∈ part.support ∧
        x.1 = (([diagonal 2, dense 1 2].take i).map nrows).sum + r}
      (vertcat [diagonal 2, dense 1 2]) ∧
    Gives (4 < tableLimit) (2, 3)
      {x | ∃ i part, [diagonal 2, dense 2 1][i]? = some part ∧ ∃ c, (x.1, c) ∈ part.support ∧
        x.2 = (([diagonal 2, dense 2 1].take i).map ncols).sum + c}
      (horzcat [diagonal 2, dense 2 1]) :=
  ⟨rfl, set_algebra.2.2.2.1 (diagonal 2) (dense 2 1) rfl,
    set_algebra.1 3 2 [2, 0, 2, 1] [0, 0, 0, 1] rfl (by decide), rfl,
    (set_algebra.2.1 (diagonal 2) (dense 2 2) rfl).1,
    set_algebra.2.2.2.2.1 [diagonal 2, dense 1 2] (by decide),
    set_algebra.2.2.2.2.2.1 [diagonal 2, dense 2 1] (by decide)⟩

/-- Shapes that fit do not bound the marks of a product, the starts of the columns that triplets are
sorted into, or the rows and columns of joined parts. -/
theorem fitting_tooLarge :
    (empty tableLimit 1).ncols = (dense 1 1).nrows ∧
    (empty tableLimit 1).productOf (dense 1 1) = .error .tooLarge ∧
    ofTriplets 0 (tableLimit - 1) [] [] = .error .tooLarge ∧
    (empty (countLimit - 1) 0).ncols = (empty 1 0).ncols ∧
    vertcat [empty (countLimit - 1) 0, empty 1 0] = .error .tooLarge ∧
    (∀ a ∈ List.replicate (2 ^ 30) (empty 1 (2 ^ 30)), a.nrows = 1) ∧
    horzcat (List.replicate (2 ^ 30) (empty 1 (2 ^ 30))) = .error .tooLarge := by
  refine ⟨rfl, rfl, rfl, rfl, rfl, fun a ha => ?_, horzcat_of_large ?_⟩
  · rw [List.eq_of_mem_replicate ha]
    rfl
  · rw [sum_ncols_replicate, ncols_empty]
    decide

end Pattern

end Fluxion
