import Fluxion.Proofs.Pattern.Compressed

/-!
# Transposition

The nonzeros of a transpose are those of the pattern in another order, and the order is in the map
that comes with it: for each nonzero of the transpose the number of the nonzero that it comes from. The
map is a permutation, and transposing once more gives the pattern back together with the inverse
permutation. So values may be moved there and back by number alone.

A transpose has a column for each row, so its starts may not fit into a table although those of the
pattern do. A product is refused for its rows as well, by one row later than its transpose is.
Transposing a product and multiplying transposes therefore have the same outcome, refusals included.

## Main definitions

* `Pattern.Transposes` — what the map of a transpose says

## Main results

* `Pattern.transposes_transposeMap` — **the map is a permutation that leads across the diagonal**
* `Pattern.transpose_transpose`, `Pattern.getElem?_transposeMap_transpose` — there and back
* `Pattern.transpose_product` — the transpose of a product
* `Pattern.transposition_involutive` — all of this of the operations that check sizes
-/

namespace Fluxion

namespace Pattern

variable {p q : Pattern} {i j k l : Nat}

/-! ### The map of a transpose -/

theorem getElem?_positions_transpose :
    p.transpose.positions[k]? = some (i, j) ↔
      ∃ l, p.transposeMap[k]? = some l ∧ p.positions[l]? = some (j, i) := by
  rw [← map_transposeMap, List.getElem?_map, Option.map_eq_some_iff]
  refine exists_congr fun l => and_congr_right fun hl => ?_
  have hlt : l < p.positions.length := lt_nnz_of_mem_transposeMap (List.mem_of_getElem? hl)
  rw [List.getD_eq_getElem _ _ hlt, List.getElem?_eq_getElem hlt, Option.some.injEq]
  exact Prod.swap_eq_iff_eq_swap

theorem nodup_transposeMap (p : Pattern) : p.transposeMap.Nodup := by
  refine List.Nodup.of_map (fun l => (p.positions.getD l (0, 0)).swap) ?_
  rw [map_transposeMap]
  exact p.transpose.nodup_positions

/-- A position has one number. -/
theorem eq_of_getElem?_positions {x : Nat × Nat} (hk : p.positions[k]? = some x)
    (hl : p.positions[l]? = some x) : k = l :=
  Option.some.inj ((find?_eq_some_iff.mpr hk).symm.trans (find?_eq_some_iff.mpr hl))

theorem mem_transposeMap : l ∈ p.transposeMap ↔ l < p.nnz := by
  refine ⟨lt_nnz_of_mem_transposeMap, fun hlt => ?_⟩
  obtain ⟨⟨j, i⟩, hl⟩ : ∃ x, p.positions[l]? = some x := ⟨_, List.getElem?_eq_getElem hlt⟩
  have hmem : (i, j) ∈ p.transpose.positions :=
    mem_positions_transpose.mpr (List.mem_of_getElem? hl)
  obtain ⟨k, hk⟩ := List.mem_iff_getElem?.mp hmem
  obtain ⟨l', hl', hpos⟩ := getElem?_positions_transpose.mp hk
  rw [eq_of_getElem?_positions hl hpos]
  exact List.mem_of_getElem? hl'

theorem perm_transposeMap (p : Pattern) : p.transposeMap.Perm (List.range p.nnz) :=
  (List.perm_ext_iff_of_nodup p.nodup_transposeMap List.nodup_range).mpr fun _ => by
    rw [mem_transposeMap, List.mem_range]

/-- A map from the nonzeros of a transpose to those of a pattern: it has each of them once, and leads
across the diagonal. -/
structure Transposes (p t : Pattern) (map : List Nat) : Prop where
  shape : t.shape = p.shape.swap
  perm : map.Perm (List.range p.nnz)
  positions : ∀ (k : Nat) i j, t.positions[k]? = some (i, j) ↔
    ∃ l, map[k]? = some l ∧ p.positions[l]? = some (j, i)

/-- **The map of a transpose is a permutation that leads across the diagonal.** -/
theorem transposes_transposeMap (p : Pattern) : Transposes p p.transpose p.transposeMap where
  shape := by simp [Pattern.shape]
  perm := p.perm_transposeMap
  positions := fun _ _ _ => getElem?_positions_transpose

/-! ### There and back -/

theorem transpose_transpose (p : Pattern) : p.transpose.transpose = p := by
  refine eq_of_support (by simp [shape]) (Set.ext fun x => ?_)
  rw [mem_support, mem_support, mem_positions_transpose, mem_positions_transpose]

theorem getElem?_transposeMap_of (h : p.transposeMap[k]? = some l) :
    p.transpose.transposeMap[l]? = some k := by
  have hlt := lt_nnz_of_mem_transposeMap (List.mem_of_getElem? h)
  obtain ⟨⟨j, i⟩, hl⟩ : ∃ x, p.positions[l]? = some x := ⟨_, List.getElem?_eq_getElem hlt⟩
  have hk := getElem?_positions_transpose.mpr ⟨l, h, hl⟩
  rw [← p.transpose_transpose] at hl
  obtain ⟨k', hk', hpos⟩ := getElem?_positions_transpose.mp hl
  rw [eq_of_getElem?_positions hk hpos]
  exact hk'

/-- **Transposing back comes with the inverse permutation.** -/
theorem getElem?_transposeMap_transpose :
    p.transpose.transposeMap[l]? = some k ↔ p.transposeMap[k]? = some l := by
  refine ⟨fun h => ?_, getElem?_transposeMap_of⟩
  rw [← p.transpose_transpose]
  exact getElem?_transposeMap_of h

/-! ### Products -/

@[simp] theorem nrows_product (p q : Pattern) : (p.product q).nrows = p.nrows := rfl

@[simp] theorem ncols_product (p q : Pattern) : (p.product q).ncols = q.ncols := by
  simp [product, ncols]

/-- The factors change places. -/
theorem transpose_product (p q : Pattern) :
    (p.product q).transpose = q.transpose.product p.transpose := by
  have hshape : (p.product q).transpose.shape = (q.transpose.product p.transpose).shape := by
    rw [shape, shape, nrows_transpose, ncols_transpose, ncols_product, ncols_product,
      ncols_transpose, nrows_product, nrows_product, nrows_transpose]
  refine eq_of_support hshape (Set.ext fun x => ?_)
  rw [mem_support, mem_support, mem_positions_transpose, mem_positions_product,
    mem_positions_product]
  refine exists_congr fun k => ?_
  rw [mem_positions_transpose, mem_positions_transpose]
  exact and_comm

theorem transposeOf_eq_ok (h : p.nrows + 1 < tableLimit) : p.transposeOf = .ok p.transpose :=
  if_pos h

theorem transposeOf_eq_error (h : ¬ p.nrows + 1 < tableLimit) : p.transposeOf = .error .tooLarge :=
  if_neg h

/-- **Transposing a product and multiplying the transposes have one outcome.** -/
theorem transposeOf_productOf (hp : p.ncols + 1 < tableLimit) (hq : q.ncols + 1 < tableLimit)
    (hfit : p.ncols = q.nrows) :
    (p.productOf q).bind transposeOf
      = q.transposeOf.bind fun right => p.transposeOf.bind fun left => right.productOf left := by
  have hinner : q.transpose.ncols = p.transpose.nrows := by rw [ncols_transpose, nrows_transpose, hfit]
  rw [transposeOf_eq_ok (p := q) (hfit ▸ hp), productOf, if_neg (not_not.mpr hfit)]
  by_cases hrows : p.nrows + 1 < tableLimit
  · have hright : q.transpose.productOf p.transpose = .ok (q.transpose.product p.transpose) := by
      rw [productOf, if_neg (not_not.mpr hinner), nrows_transpose, if_neg (by omega)]
    rw [transposeOf_eq_ok hrows, if_neg (by omega)]
    show (p.product q).transposeOf = q.transpose.productOf p.transpose
    rw [hright, transposeOf_eq_ok (p := p.product q) hrows, transpose_product]
  · rw [transposeOf_eq_error hrows]
    split
    · rfl
    · exact transposeOf_eq_error (p := p.product q) hrows

/-- **Transposition is an involution with a permutation for its map, and reverses products.** The
starts of a pattern are a table, and those of its transpose have to be one. -/
theorem transposition_involutive :
    (∀ p : Pattern, p.starts.length < tableLimit →
      (p.nrows + 1 < tableLimit → ∃ t, p.transposeOf = .ok t ∧ Transposes p t p.transposeMap ∧
        t.transposeOf = .ok p ∧ Transposes t p t.transposeMap ∧
        ∀ k l : Nat, t.transposeMap[l]? = some k ↔ p.transposeMap[k]? = some l) ∧
      (¬ p.nrows + 1 < tableLimit → p.transposeOf = .error .tooLarge)) ∧
    ∀ p q : Pattern, p.starts.length < tableLimit → q.starts.length < tableLimit →
      p.ncols = q.nrows →
      (p.productOf q).bind transposeOf
        = q.transposeOf.bind fun right => p.transposeOf.bind fun left => right.productOf left := by
  constructor
  · intro p hstarts
    rw [p.isCompressed.length_starts] at hstarts
    refine ⟨fun hrows => ⟨p.transpose, transposeOf_eq_ok hrows, p.transposes_transposeMap, ?_, ?_,
      fun _ _ => getElem?_transposeMap_transpose⟩, transposeOf_eq_error⟩
    · rw [transposeOf_eq_ok hstarts, transpose_transpose]
    · have hback := p.transpose.transposes_transposeMap
      rwa [transpose_transpose] at hback
  · intro p q hp hq hfit
    rw [p.isCompressed.length_starts] at hp
    rw [q.isCompressed.length_starts] at hq
    exact transposeOf_productOf hp hq hfit

/-- Two rows of three columns, where the nonzeros of the first row are not neighbours, and the product
of this with a column. -/
theorem transposition_involutive_rows :
    let p := ofPositions 2 3 [(0, 0), (1, 1), (0, 2)]
    p.starts.length < tableLimit ∧ p.nrows + 1 < tableLimit ∧ p.transposeMap = [0, 2, 1] ∧
      (∃ t, p.transposeOf = .ok t ∧ Transposes p t p.transposeMap ∧ t.transposeOf = .ok p ∧
        Transposes t p t.transposeMap ∧
        ∀ k l : Nat, t.transposeMap[l]? = some k ↔ p.transposeMap[k]? = some l) ∧
      (dense 3 1).starts.length < tableLimit ∧ p.ncols = (dense 3 1).nrows ∧
      (p.productOf (dense 3 1)).bind transposeOf = (dense 3 1).transposeOf.bind fun right =>
        p.transposeOf.bind fun left => right.productOf left := by
  intro p
  exact ⟨by decide, by decide, by decide, (transposition_involutive.1 p (by decide)).1 (by decide),
    by decide, by decide,
    transposition_involutive.2 p (dense 3 1) (by decide) (by decide) (by decide)⟩

end Pattern

end Fluxion
