import Fluxion.Proofs.Matrix.Meaning
import Fluxion.Proofs.Pattern.Maps

/-!
# Sums in place, entry by entry

A matrix product goes through its terms once and adds each to the sum that it belongs to, and so does
a scatter. Seen from one entry of the result, this adds up the terms of that entry, in the order in
which they are met.

For a product these are the terms of the textbook: the column of the right factor is gone through in
storage order, and each nonzero meets the one nonzero of the row of the left factor that it can meet,
if that is stored.

## Main definitions

* `sumOf` — a sum in order, of one term at least
* `Pattern.entryTerms` — the terms of one entry of a product
* `ScatterMap.termsAt` — the terms of one entry of a scatter

## Main results

* `MatrixOp.getElem?_runProduct` — **entries of a product**
* `MatrixOp.getElem?_runScatter` — **entries of a scatter**
* `Pattern.exists_entryTerm` — an entry that is stored has a term
-/

namespace Fluxion

variable {V : Type} {A : Algebra Id V} {z : V}

/-! ### Sums -/

/-- The sum of terms from left to right. There is no sum of no terms. -/
def sumOf (A : Algebra Id V) : List V → Option V
  | [] => none
  | first :: rest => some (rest.foldl (A.binary .add) first)

/-- A sum, or none so far, with more terms. -/
def addAll (A : Algebra Id V) : Option V → List V → Option V
  | none, terms => sumOf A terms
  | some s, terms => some (terms.foldl (A.binary .add) s)

theorem addAll_cons (sum : Option V) (term : V) (terms : List V) :
    addAll A sum (term :: terms) = addAll A (some (sum.elim term (A.binary .add · term))) terms := by
  cases sum <;> rfl

namespace MatrixOp

variable {sums : Array (Option V)} {r s : Nat}

theorem getD_addTo (hr : r < sums.size) (term : V) :
    (addTo A sums s term).getD r none
      = if s = r then some ((sums.getD r none).elim term (A.binary .add · term))
        else sums.getD r none := by
  rw [addTo, Array.getD_eq_getD_getElem?]
  by_cases hs : s = r
  · rw [if_pos hs, hs, Array.getElem?_setIfInBounds_self_of_lt hr, Option.getD_some]
  · rw [if_neg hs, Array.getElem?_setIfInBounds_ne hs, Array.getD_eq_getD_getElem?]

/-- What adds up in one place are the terms that belong there. -/
theorem getD_foldl_addTo (terms : List (Nat × V)) (hr : r < sums.size) :
    (terms.foldl (fun sums t => addTo A sums t.1 t.2) sums).getD r none
      = addAll A (sums.getD r none) ((terms.filter (·.1 = r)).map Prod.snd) := by
  induction terms generalizing sums with
  | nil => cases h : sums.getD r none <;> simp [addAll, sumOf, h]
  | cons t rest ih =>
    rw [List.foldl_cons, ih (by rwa [size_addTo]), getD_addTo hr, List.filter_cons]
    by_cases ht : t.1 = r
    · rw [if_pos ht, if_pos (decide_eq_true ht), List.map_cons, addAll_cons]
    · rw [if_neg ht, if_neg (by simpa using ht)]

theorem size_foldl_addTo (terms : List (Nat × V)) (sums : Array (Option V)) :
    (terms.foldl (fun sums t => addTo A sums t.1 t.2) sums).size = sums.size :=
  size_foldl (fun _ _ => size_addTo ..) terms sums

/-- Terms that are added up in places that are empty at first. -/
theorem getElem?_addUp {n : Nat} (terms : List (Nat × V)) (hr : r < n) :
    ((terms.foldl (fun sums t => addTo A sums t.1 t.2) (Array.replicate n none)).toList.map
        (·.getD z))[r]?
      = some ((sumOf A ((terms.filter (·.1 = r)).map Prod.snd)).getD z) := by
  have hsize := size_foldl_addTo (A := A) terms (Array.replicate n none)
  rw [Array.size_replicate] at hsize
  have hsum := getD_foldl_addTo (A := A) terms
    (show r < (Array.replicate n none).size by rwa [Array.size_replicate])
  have hnone : (Array.replicate n (none : Option V)).getD r none = none := by
    rw [Array.getD_eq_getD_getElem?, Array.getElem?_replicate]
    split <;> rfl
  rw [hnone] at hsum
  rw [List.getElem?_map, Array.getElem?_toList, Array.getElem?_eq_getElem (by rwa [hsize]),
    Option.map_some, Option.some.injEq]
  rw [Array.getD_eq_getD_getElem?, Array.getElem?_eq_getElem (by rwa [hsize]),
    Option.getD_some] at hsum
  rw [hsum]
  rfl

end MatrixOp

/-! ### Terms of a product -/

namespace Pattern

variable {p q : Pattern} {i j k r : Nat}

/-- The terms of entry `(i, j)` of a matrix product in the order in which they are added up, as
nonzeros of the factors: the nonzeros in column `j` of the right factor in storage order, each with
the nonzero of row `i` of the left factor that it meets, if that is stored. -/
def entryTerms (left right : Pattern) (i j : Nat) : List (Nat × Nat) :=
  right.positions.zipIdx.filterMap fun ((l, c), k) =>
    if c = j then (left.find? i l).map fun h => (h, k) else none

theorem length_numberFrom (first : Nat) (columns : List (List Nat)) :
    (numberFrom first columns).length = columns.length := by
  induction columns generalizing first with
  | nil => rfl
  | cons rows rest ih => simp [numberFrom, ih]

theorem length_numberedColumns (p : Pattern) : p.numberedColumns.length = p.ncols :=
  length_numberFrom 0 p.columns

theorem zipIdx_flatMap_zipIdx (columns : List (List Nat)) (j first : Nat) :
    ((columns.zipIdx j).flatMap fun entry => entry.1.map (·, entry.2)).zipIdx first
      = ((numberFrom first columns).zipIdx j).flatMap fun entry =>
        entry.1.map fun x => ((x.1, entry.2), x.2) := by
  induction columns generalizing j first with
  | nil => rfl
  | cons rows rest ih =>
    rw [List.zipIdx_cons, List.flatMap_cons, List.zipIdx_append, List.length_map, ih, numberFrom,
      List.zipIdx_cons, List.flatMap_cons, List.zipIdx_map]
    rfl

theorem zipIdx_numberedColumns (p : Pattern) :
    p.numberedColumns.zipIdx = (List.range p.ncols).map fun c => (p.numberedColumns.getD c [], c) := by
  refine List.ext_getElem (by simp [length_numberedColumns]) fun c hc _ => ?_
  have hlt : c < p.numberedColumns.length := by simpa using hc
  rw [List.getElem_zipIdx, List.getElem_map, List.getElem_range, List.getD_eq_getElem _ _ hlt,
    Nat.zero_add]

/-- Positions are numbered column by column. -/
theorem zipIdx_positions (p : Pattern) :
    p.positions.zipIdx = (List.range p.ncols).flatMap fun c =>
      (p.numberedColumns.getD c []).map fun x => ((x.1, c), x.2) := by
  rw [positions]
  refine (zipIdx_flatMap_zipIdx p.columns 0 0).trans ?_
  rw [← numberedColumns, zipIdx_numberedColumns, List.flatMap_map]

theorem pairwise_numberedColumn (p : Pattern) (c : Nat) :
    (p.numberedColumns.getD c []).Pairwise (·.1 < ·.1) := by
  rw [List.getD_eq_getElem?_getD]
  cases hc : p.numberedColumns[c]? with
  | none => exact .nil
  | some column =>
    exact pairwise_of_mem_numberFrom (fun rows h => (p.isColumn rows h).1) column
      (List.mem_of_getElem? hc)

/-- Looking through a column for a row finds what is beside the row. -/
theorem filterMap_eq_lookup {β : Type} {column : List (Nat × Nat)}
    (h : column.Pairwise (·.1 < ·.1)) (i : Nat) (f : Nat → β) :
    (column.filterMap fun x => if x.1 = i then some (f x.2) else none)
      = ((column.lookup i).map f).toList := by
  induction column with
  | nil => rfl
  | cons x rest ih =>
    obtain ⟨hx, hrest⟩ := List.pairwise_cons.mp h
    rw [List.filterMap_cons, List.lookup_cons]
    by_cases hi : x.1 = i
    · have hnone : rest.lookup i = none := List.lookup_eq_none_iff.mpr fun y hy => by
        have := hx y hy
        simp only [bne_iff_ne, ne_eq]
        omega
      have hbeq : (i == x.1) = true := by simpa using hi.symm
      rw [if_pos hi, ih hrest, hnone, hbeq]
      rfl
    · have hbeq : (i == x.1) = false := by simpa using fun h : i = x.1 => hi h.symm
      rw [if_neg hi, ih hrest, hbeq]

/-- The terms of a product, column by column of the right factor. -/
theorem productTerms_eq (left right : Pattern) {result : Pattern}
    (hcols : result.ncols = right.ncols) :
    productTerms left right result = (List.range right.ncols).flatMap fun c =>
      (right.numberedColumns.getD c []).flatMap fun x =>
        (left.numberedColumns.getD x.1 []).filterMap fun y =>
          (result.find? y.1 c).map fun r => (y.2, x.2, r) := by
  have hzip : right.numberedColumns.zip result.numberedColumns
      = (List.range right.ncols).map fun c =>
        (right.numberedColumns.getD c [], result.numberedColumns.getD c []) := by
    refine List.ext_getElem (by simp [length_numberedColumns, hcols]) fun c hc _ => ?_
    have hlt : c < right.numberedColumns.length ∧ c < result.numberedColumns.length := by
      simpa using hc
    rw [List.getElem_zip, List.getElem_map, List.getElem_range, List.getD_eq_getElem _ _ hlt.1,
      List.getD_eq_getElem _ _ hlt.2]
  have hlocate : ∀ c k, Pattern.locateRows (result.numberedColumns.getD c [])
      ((left.numberedColumns.getD k []).map Prod.fst)
        = ((left.numberedColumns.getD k []).map Prod.fst).map (result.find? · c) := by
    intro c k
    rw [locateRows_eq_map_lookup (pairwise_numberedColumn result c)
      (List.pairwise_map.mpr (pairwise_numberedColumn left k))]
    exact List.map_congr_left fun s _ => (result.find?_eq_lookup s c).symm
  rw [productTerms, hzip, List.flatMap_map]
  refine List.flatMap_congr fun c _ => List.flatMap_congr fun x _ => ?_
  dsimp only
  rw [getD_toArray, hlocate, List.map_map, ← List.map_prod_left_eq_zip, List.filterMap_map]
  rfl

/-- The terms of a product that belong to one entry. -/
theorem filterMap_productTerms {left right : Pattern}
    (hr : (left.product right).positions[r]? = some (i, j)) :
    ((productTerms left right (left.product right)).filterMap fun t =>
        if t.2.2 = r then some (t.1, t.2.1) else none)
      = entryTerms left right i j := by
  have hfind : (left.product right).find? i j = some r := find?_eq_some_iff.mpr hr
  have hentry : ∀ {s c : Nat}, (left.product right).find? s c = some r → s = i ∧ c = j := by
    intro s c h
    have := find?_eq_some_iff.mp h
    rw [hr, Option.some.injEq, Prod.mk.injEq] at this
    exact ⟨this.1.symm, this.2.symm⟩
  rw [productTerms_eq left right (by simp [product, ncols]), entryTerms, zipIdx_positions,
    List.filterMap_flatMap, List.filterMap_flatMap]
  refine List.flatMap_congr fun c _ => ?_
  rw [List.filterMap_flatMap, List.filterMap_map, List.filterMap_eq_flatMap_toList]
  refine List.flatMap_congr fun x _ => ?_
  rw [List.filterMap_filterMap]
  have hterm : ∀ y : Nat × Nat, ((((left.product right).find? y.1 c).map fun s => (y.2, x.2, s)).bind
      fun t => if t.2.2 = r then some (t.1, t.2.1) else none)
        = if y.1 = i ∧ c = j then some (y.2, x.2) else none := by
    intro y
    cases hs : (left.product right).find? y.1 c with
    | none =>
      rw [if_neg]
      · rfl
      · rintro ⟨rfl, rfl⟩
        rw [hfind] at hs
        contradiction
    | some s =>
      rw [Option.map_some, Option.bind_some]
      by_cases hsr : s = r
      · subst hsr
        rw [if_pos rfl, if_pos (hentry hs)]
      · rw [if_neg hsr, if_neg]
        rintro ⟨rfl, rfl⟩
        exact hsr (Option.some.inj (hs.symm.trans hfind))
  rw [List.filterMap_congr fun y _ => hterm y]
  dsimp only [Function.comp]
  by_cases hc : c = j
  · rw [if_pos hc, find?_eq_lookup, ← filterMap_eq_lookup (pairwise_numberedColumn left x.1)]
    exact List.filterMap_congr fun y _ => by simp [hc]
  · rw [if_neg hc]
    exact List.filterMap_eq_nil_iff.mpr fun y _ => if_neg fun h => hc h.2

theorem mem_entryTerms {left right : Pattern} {h : Nat} :
    (h, k) ∈ entryTerms left right i j
      ↔ ∃ l, right.positions[k]? = some (l, j) ∧ left.positions[h]? = some (i, l) := by
  simp only [entryTerms, List.mem_filterMap, Prod.exists, List.mk_mem_zipIdx_iff_getElem?]
  constructor
  · rintro ⟨l, c, m, hm, hif⟩
    split at hif
    · rename_i hc
      obtain ⟨n, hn, heq⟩ := Option.map_eq_some_iff.mp hif
      obtain ⟨rfl, rfl⟩ := Prod.mk.inj heq
      exact ⟨l, hc ▸ hm, find?_eq_some_iff.mp hn⟩
    · contradiction
  · rintro ⟨l, hk, hh⟩
    exact ⟨l, j, k, hk, by rw [if_pos rfl, find?_eq_some_iff.mpr hh]; rfl⟩

theorem mem_reach {inner : List Nat} : i ∈ p.reach inner ↔ ∃ l ∈ inner, i ∈ p.column l := by
  induction inner with
  | nil => simp [reach]
  | cons l rest ih =>
    have hrest : (p.reach rest).Pairwise (· < ·) := (p.reach_isColumn rest).1
    show i ∈ mergeRows (p.column l) (p.reach rest) ↔ _
    rw [mem_mergeRows hrest, ih]
    simp

/-- A product has an entry where a row and a column of the factors meet. -/
theorem mem_positions_product {left right : Pattern} :
    (i, j) ∈ (left.product right).positions
      ↔ ∃ l, (i, l) ∈ left.positions ∧ (l, j) ∈ right.positions := by
  have hcolumn : (left.product right).column j = left.reach (right.column j) := by
    rw [column, column, product, List.getD_eq_getElem?_getD, List.getD_eq_getElem?_getD,
      List.getElem?_map]
    cases right.columns[j]? <;> rfl
  simp only [mem_positions, hcolumn, mem_reach]
  constructor
  · rintro ⟨l, hl, hi⟩
    exact ⟨l, hi, hl⟩
  · rintro ⟨l, hi, hl⟩
    exact ⟨l, hl, hi⟩

/-- An entry of a product that is stored has a term. -/
theorem exists_entryTerm {left right : Pattern} (hij : (i, j) ∈ (left.product right).positions) :
    ∃ t, t ∈ entryTerms left right i j := by
  obtain ⟨l, hil, hlj⟩ := mem_positions_product.mp hij
  obtain ⟨h, hh⟩ := List.getElem?_of_mem hil
  obtain ⟨k, hk⟩ := List.getElem?_of_mem hlj
  exact ⟨(h, k), mem_entryTerms.mpr ⟨l, hk, hh⟩⟩

end Pattern

/-! ### Terms of a scatter -/

/-- The terms of one entry of a scatter, by where they come from. -/
def ScatterMap.termsAt (map : ScatterMap) (r : Nat) : List Nat :=
  map.zipIdx.filterMap fun (target, k) => if target = some r then some k else none

namespace MatrixOp

variable {r i j : Nat}

/-- **Entries of a product** are the sums of their terms. -/
theorem getElem?_runProduct {left right : Pattern} (x y : List V)
    (hr : (left.product right).positions[r]? = some (i, j)) :
    (Id.run (runProduct A z left right (left.product right) x y))[r]?
      = some ((sumOf A ((Pattern.entryTerms left right i j).map fun t =>
          A.binary .mul (x.getD t.1 z) (y.getD t.2 z))).getD z) := by
  have hlt : r < (left.product right).nnz := (List.getElem?_eq_some_iff.mp hr).1
  have hterms := getElem?_addUp (A := A) (z := z)
    ((productTerms left right (left.product right)).map fun t =>
      (t.2.2, A.binary .mul (x.getD t.1 z) (y.getD t.2.1 z))) hlt
  rw [List.foldl_map, List.filter_map, List.map_map] at hterms
  rw [runProduct_eq, ← Pattern.filterMap_productTerms hr, List.map_filterMap]
  refine hterms.trans ?_
  congr 3
  rw [← List.filterMap_eq_map, List.filterMap_filter]
  refine List.filterMap_congr fun t _ => ?_
  by_cases ht : t.2.2 = r <;> simp [ht]

theorem zip_eq_map_zipIdx {α : Type} {as : List α} {x : List V} (hlength : as.length = x.length) :
    as.zip x = as.zipIdx.map fun t => (t.1, x.getD t.2 z) := by
  refine List.ext_getElem (by simp [hlength]) fun k hk _ => ?_
  have hlt : k < x.length := by
    rw [List.length_zip] at hk
    omega
  rw [List.getElem_zip, List.getElem_map, List.getElem_zipIdx, Nat.zero_add,
    List.getD_eq_getElem _ _ hlt]

/-- **Entries of a scatter** are the sums of what is sent there. -/
theorem getElem?_runScatter {map : ScatterMap} {result : Pattern} {x : List V}
    (hlength : map.length = x.length) (hr : r < result.nnz) :
    (Id.run (runScatter A z map result x))[r]?
      = some ((sumOf A ((map.termsAt r).map (x.getD · z))).getD z) := by
  have hterms := getElem?_addUp (A := A) (z := z)
    ((map.zip x).filterMap fun t => t.1.map (·, t.2)) hr
  have hsteps : (map.zip x).foldl (fun sums t => t.1.elim sums (addTo A sums · t.2))
      (Array.replicate result.nnz none)
        = ((map.zip x).filterMap fun t => t.1.map (·, t.2)).foldl
          (fun sums t => addTo A sums t.1 t.2) (Array.replicate result.nnz none) := by
    rw [List.foldl_filterMap]
    refine congrArg (fun step => List.foldl step _ _) (funext fun sums => funext fun t => ?_)
    cases t.1 <;> rfl
  rw [runScatter_eq]
  refine (congrArg (fun sums : Array (Option V) => (sums.toList.map (·.getD z))[r]?) hsteps).trans
    (hterms.trans ?_)
  congr 3
  rw [zip_eq_map_zipIdx (z := z) hlength, ScatterMap.termsAt, List.map_filterMap,
    ← List.filterMap_eq_map, List.filterMap_filter, List.filterMap_filterMap, List.filterMap_map]
  refine List.filterMap_congr fun t _ => ?_
  obtain ⟨target, k⟩ := t
  cases target with
  | none => rfl
  | some s => by_cases hs : s = r <;> simp [hs]

theorem mem_termsAt {map : ScatterMap} {k : Nat} : k ∈ map.termsAt r ↔ map[k]? = some (some r) := by
  simp only [ScatterMap.termsAt, List.mem_filterMap, Prod.exists, List.mk_mem_zipIdx_iff_getElem?]
  constructor
  · rintro ⟨target, l, hl, hif⟩
    split at hif
    · rename_i ht
      rw [← Option.some.inj hif, hl, ht]
    · contradiction
  · intro hk
    exact ⟨some r, k, hk, if_pos rfl⟩

end MatrixOp

end Fluxion
