/-!
# Tables by number

Columns, nodes and nonzeros are numbered from zero, and what is known of them is kept in tables that
are read by number. `marks` says which numbers occur in a list, and `buckets` sorts values by a
number that comes with each of them. Where no bound is known beforehand, a table grows as it is
changed, by `alter`; what is known of some numbers only and sets of numbers are kept in `NumberMap`
and `NumberSet`, which stay small where little is in them.

All of them are filled in place. What an entry is in the end is said once, by one lemma for each.

## Main definitions

* `marks`, `buckets`: tables with an entry for each number below a bound.
* `alter`: change an entry of a table without bound.
* `NumberMap`: values for some numbers.
* `NumberSet`: sets of numbers.

## Main statements

* `getElem?_marks`: an entry is true iff its number is in the list.
* `getElem?_buckets`: an entry lists the values with its number, in order.
* `getD_alter`: one entry is changed and the others are not.
* `NumberMap.find?_insert`: what is in a map after an insertion.
* `NumberSet.contains_insert`, `NumberSet.contains_ofList`, `NumberSet.contains_ofRepeated`: what is
  in a set.
-/

namespace Fluxion

/-! ### Marks -/

/-- Which of the numbers below `n` are in a list. -/
def marks (n : Nat) (numbers : List Nat) : Array Bool :=
  numbers.foldl (fun table k => table.setIfInBounds k true) (Array.replicate n false)

theorem getElem?_foldl_setIfInBounds (numbers : List Nat) (table : Array Bool) (i : Nat) :
    (numbers.foldl (fun table k => table.setIfInBounds k true) table)[i]?
      = table[i]?.map (· || decide (i ∈ numbers)) := by
  induction numbers generalizing table with
  | nil => simp
  | cons k rest ih =>
    rw [List.foldl_cons, ih, Array.getElem?_setIfInBounds]
    by_cases hk : k = i
    · subst hk
      by_cases hb : k < table.size
      · simp [hb]
      · simp [hb]
    · have : ¬ i = k := fun h => hk h.symm
      simp [hk, this]

theorem getElem?_marks (n : Nat) (numbers : List Nat) (i : Nat) :
    (marks n numbers)[i]? = if i < n then some (decide (i ∈ numbers)) else none := by
  rw [marks, getElem?_foldl_setIfInBounds, Array.getElem?_replicate]
  split <;> simp

@[simp] theorem size_marks (n : Nat) (numbers : List Nat) : (marks n numbers).size = n := by
  have : ∀ table : Array Bool,
      (numbers.foldl (fun table k => table.setIfInBounds k true) table).size = table.size := by
    induction numbers with
    | nil => simp
    | cons k rest ih => simp [ih]
  simp [marks, this]

/-! ### Buckets -/

variable {α : Type}

/-- The values for each number below `n`, each list in the order of the items. -/
def buckets (n : Nat) (items : List (Nat × α)) : Array (List α) :=
  items.foldr (fun (k, a) table => table.modify k (a :: ·)) (Array.replicate n [])

theorem getElem?_buckets (n : Nat) (items : List (Nat × α)) (i : Nat) :
    (buckets n items)[i]? =
      if i < n then some (items.filterMap fun (k, a) => if k = i then some a else none)
      else none := by
  induction items with
  | nil => simp [buckets, Array.getElem?_replicate]
  | cons item rest ih =>
    obtain ⟨k, a⟩ := item
    have hstep : buckets n ((k, a) :: rest) = (buckets n rest).modify k (a :: ·) := rfl
    rw [hstep, Array.getElem?_modify, ih]
    by_cases hi : i < n <;> by_cases hk : k = i <;> simp [hi, hk]

@[simp] theorem size_buckets (n : Nat) (items : List (Nat × α)) : (buckets n items).size = n := by
  induction items with
  | nil => simp [buckets]
  | cons item rest ih =>
    have hstep : buckets n (item :: rest) = (buckets n rest).modify item.1 (item.2 :: ·) := rfl
    rw [hstep, Array.size_modify, ih]

/-! ### Tables without bound -/

/-- Change entry `k` of a table. Entries that are not there yet count as `fill`. -/
def alter (fill : α) (table : Array α) (k : Nat) (f : α → α) : Array α :=
  (table ++ Array.replicate (k + 1 - table.size) fill).modify k f

theorem getD_append_replicate (fill : α) (table : Array α) (n i : Nat) :
    (table ++ Array.replicate n fill).getD i fill = table.getD i fill := by
  rw [Array.getD_eq_getD_getElem?, Array.getD_eq_getD_getElem?, Array.getElem?_append]
  split
  · rfl
  · rename_i h
    rw [Array.getElem?_eq_none (Nat.le_of_not_lt h), Array.getElem?_replicate]
    split <;> rfl

theorem getD_alter (fill : α) (table : Array α) (k : Nat) (f : α → α) (i : Nat) :
    (alter fill table k f).getD i fill
      = if i = k then f (table.getD i fill) else table.getD i fill := by
  have hk : k < (table ++ Array.replicate (k + 1 - table.size) fill).size := by
    rw [Array.size_append, Array.size_replicate]
    omega
  rw [← getD_append_replicate fill table (k + 1 - table.size) i, alter,
    Array.getD_eq_getD_getElem?, Array.getElem?_modify, Array.getD_eq_getD_getElem?]
  by_cases h : i = k
  · subst h
    simp [Array.getElem?_eq_getElem hk]
  · rw [if_neg h, if_neg fun h' => h h'.symm]

/-! ### Maps from numbers -/

/-- Values for some numbers. They are kept on pages of 32 entries, and these in blocks of 32 pages;
pages and blocks with nothing on them take no place. -/
structure NumberMap (α : Type) where
  blocks : Array (Array (Array (Option α)))
deriving DecidableEq, Repr

namespace NumberMap

/-- The map without values. -/
def empty : NumberMap α := ⟨#[]⟩

/-- The value of a number, if it has one. -/
def find? (m : NumberMap α) (k : Nat) : Option α :=
  ((m.blocks.getD (k / 1024) #[]).getD (k / 32 % 32) #[]).getD (k % 32) none

/-- The map with a value for a number, in place of the one that it had. -/
def insert (m : NumberMap α) (k : Nat) (a : α) : NumberMap α :=
  ⟨alter #[] m.blocks (k / 1024) fun block => alter #[] block (k / 32 % 32) fun page =>
    alter none page (k % 32) fun _ => some a⟩

@[simp] theorem find?_empty (k : Nat) : (empty : NumberMap α).find? k = none := by
  simp [empty, find?]

@[simp] theorem find?_insert (m : NumberMap α) (k : Nat) (a : α) (i : Nat) :
    (m.insert k a).find? i = if i = k then some a else m.find? i := by
  by_cases h : i = k
  · subst h
    simp only [find?, insert, getD_alter, if_true]
  · have : ¬ (i / 1024 = k / 1024 ∧ i / 32 % 32 = k / 32 % 32 ∧ i % 32 = k % 32) := by omega
    rw [if_neg h, find?, insert, getD_alter]
    split
    · rw [getD_alter]
      split
      · rw [getD_alter, if_neg fun hentry => this ⟨‹_›, ‹_›, hentry⟩]
        rfl
      · rfl
    · rfl

end NumberMap

/-! ### Sets of numbers -/

/-- A set of numbers. Bit `k % 32` of word `k / 32` says whether `k` is in it. -/
structure NumberSet where
  words : NumberMap Nat
deriving DecidableEq, Repr

namespace NumberSet

/-- The set without members. -/
def empty : NumberSet := ⟨.empty⟩

/-- Bits of a set: whether `32 * w`, `32 * w + 1` and so on are in it. -/
def word (s : NumberSet) (w : Nat) : Nat := (s.words.find? w).getD 0

/-- The number is in the set. -/
def contains (s : NumberSet) (k : Nat) : Bool := (s.word (k / 32)).testBit (k % 32)

/-- The set with one number more. -/
def insert (s : NumberSet) (k : Nat) : NumberSet :=
  ⟨s.words.insert (k / 32) (s.word (k / 32) ||| 1 <<< (k % 32))⟩

theorem testBit_or_shiftLeft (word k i : Nat) :
    (word ||| 1 <<< k).testBit i = (word.testBit i || decide (i = k)) := by
  rw [Nat.testBit_or, Nat.testBit_shiftLeft]
  congr 1
  by_cases h : i = k
  · subst h; simp
  · by_cases hle : k ≤ i
    · have hpos : ¬ i - k = 0 := by omega
      have : Nat.testBit 1 (i - k) = false :=
        Bool.eq_false_iff.mpr fun hb => hpos (Nat.testBit_one_eq_true_iff_self_eq_zero.mp hb)
      simp [h, this]
    · simp [h, hle]

@[simp] theorem contains_empty (k : Nat) : empty.contains k = false := by
  simp [empty, contains, word]

@[simp] theorem contains_insert (s : NumberSet) (k i : Nat) :
    (s.insert k).contains i = (s.contains i || decide (i = k)) := by
  rw [contains, word, insert, NumberMap.find?_insert]
  split
  · rename_i hword
    rw [Option.getD_some, testBit_or_shiftLeft, contains, hword]
    congr 2
    exact propext ⟨fun h => by omega, fun h => by rw [h]⟩
  · rename_i hword
    have : ¬ i = k := fun h => hword (by rw [h])
    simp [contains, word, this]

/-- The numbers of a list. -/
def ofList (numbers : List Nat) : NumberSet := numbers.foldl insert empty

/-- The numbers that occur in a list more than once. -/
def ofRepeated (numbers : List Nat) : NumberSet :=
  go empty empty numbers
where
  /-- Go on from the numbers met so far and those met more than once. -/
  go (met repeated : NumberSet) : List Nat → NumberSet
    | [] => repeated
    | k :: rest =>
      if met.contains k then go met (repeated.insert k) rest else go (met.insert k) repeated rest

@[simp] theorem contains_ofList (numbers : List Nat) (i : Nat) :
    (ofList numbers).contains i = decide (i ∈ numbers) := by
  have : ∀ s : NumberSet,
      (numbers.foldl insert s).contains i = (s.contains i || decide (i ∈ numbers)) := by
    induction numbers with
    | nil => simp
    | cons k rest ih =>
      intro s
      rw [List.foldl_cons, ih, contains_insert]
      by_cases h : i = k <;> simp [h]
  simp [ofList, this]

theorem contains_ofRepeated_go (met repeated : NumberSet) (numbers : List Nat) (i : Nat) :
    (ofRepeated.go met repeated numbers).contains i =
      (repeated.contains i || decide ((if met.contains i then 0 else 1) < numbers.count i)) := by
  induction numbers generalizing met repeated with
  | nil => simp [ofRepeated.go]
  | cons k rest ih =>
    rw [ofRepeated.go]
    by_cases hk : k = i
    · subst hk
      cases hm : met.contains k with
      | true =>
        simp [ih, hm]
      | false =>
        simp [ih, hm, Nat.pos_iff_ne_zero]
    · have hik : ¬ i = k := fun h => hk h.symm
      split <;> simp [ih, hik, hk]

@[simp] theorem contains_ofRepeated (numbers : List Nat) (i : Nat) :
    (ofRepeated numbers).contains i = decide (1 < numbers.count i) := by
  simp [ofRepeated, contains_ofRepeated_go]

end NumberSet

end Fluxion
