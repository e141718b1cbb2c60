import Fluxion.Proofs.Matrix.Stored
import Mathlib.Algebra.BigOperators.Group.Finset.Sigma
import Mathlib.Algebra.BigOperators.Ring.Finset

/-!
# What operations store

Elementwise operations, products and sums of expressions that store elements of known matrices. A product
only adds up the terms that both factors store, and a sum only stored elements: what is left out is zero.
An elementwise operation on constants is carried out at once, nonzero by nonzero, and each of these
operations is on record.

## Main results

* `Pattern.sum_elements` — stored elements add up to the sum of all elements
* `Pattern.sum_entryTerms` — stored terms add up to an entry of the product
* `MatrixBuilder.stores_unary`, `MatrixBuilder.stores_binary` — **elementwise operations**
* `MatrixBuilder.stores_product`, `MatrixBuilder.stores_sum`, `MatrixBuilder.stores_scatter` —
  **products and sums**
-/

namespace Fluxion

open MatrixBuilder MatrixGraph

variable {V : Type}

/-! ### Sums of stored elements -/

section Sums

variable [CommRing V] {A : Algebra Id V}

theorem Algebra.OnRing.foldl_add (hA : A.OnRing) (first : V) (rest : List V) :
    rest.foldl (A.binary .add) first = first + rest.sum := by
  induction rest generalizing first with
  | nil => simp
  | cons v rest ih =>
    rw [List.foldl_cons, ih, List.sum_cons, ← add_assoc]
    exact congrArg (· + rest.sum) (hA.add first v)

/-- A sum of terms in order is their sum in the ring, and a sum of no terms is the zero that stands
for it. -/
theorem Algebra.OnRing.sumOf_getD (hA : A.OnRing) (terms : List V) :
    (sumOf A terms).getD (A.constant 0.0) = terms.sum := by
  cases terms with
  | nil => exact hA.zero
  | cons first rest => exact (hA.foldl_add first rest).trans (List.sum_cons ..).symm

namespace Pattern

variable {p q : Pattern} {x y : Nat → Nat → V}

/-- Stored elements add up to the sum of all elements. -/
theorem sum_elements (p : Pattern) (x : Nat → Nat → V) :
    (p.elements x).sum = ∑ r ∈ Finset.range p.nrows, ∑ c ∈ Finset.range p.ncols, p.masked x r c := by
  have hmasked : p.elements x = p.positions.map fun ij => p.masked x ij.1 ij.2 :=
    List.map_congr_left fun ij hij => (masked_of_mem hij).symm
  have hsubset : p.positions.toFinset ⊆ Finset.range p.nrows ×ˢ Finset.range p.ncols := by
    intro ij hij
    have hij := List.mem_toFinset.mp hij
    exact Finset.mem_product.mpr ⟨Finset.mem_range.mpr (row_lt_of_mem_positions hij),
      Finset.mem_range.mpr (column_lt_of_mem_positions hij)⟩
  rw [hmasked, ← List.sum_toFinset _ p.nodup_positions, ← Finset.sum_product']
  exact Finset.sum_subset hsubset fun ij _ hij =>
    masked_of_not_mem fun h => hij (List.mem_toFinset.mpr h)

/-- The inner index at which the nonzeros of a term meet. -/
def innerIndex (q : Pattern) (t : Nat × Nat) : Nat := (q.positions.getD t.2 (0, 0)).1

theorem innerIndex_spec {i j : Nat} {t : Nat × Nat} (ht : t ∈ p.entryTerms q i j) :
    p.positions[t.1]? = some (i, q.innerIndex t) ∧ q.positions[t.2]? = some (q.innerIndex t, j) := by
  obtain ⟨l, hq, hp⟩ := mem_entryTerms.mp (show (t.1, t.2) ∈ _ from ht)
  have hl : q.innerIndex t = l := by
    rw [innerIndex, List.getD_eq_getElem?_getD, hq]
    rfl
  exact ⟨hl.symm ▸ hp, hl.symm ▸ hq⟩

/-- Terms are in the storage order of the right factor. -/
theorem pairwise_entryTerms (p q : Pattern) (i j : Nat) :
    (p.entryTerms q i j).Pairwise (·.2 < ·.2) := by
  have hnumbers : q.positions.zipIdx.Pairwise (·.2 < ·.2) := by
    rw [← List.pairwise_map (f := Prod.snd) (R := (· < ·)), List.zipIdx_map_snd]
    exact List.pairwise_lt_range'
  rw [entryTerms, List.pairwise_filterMap]
  refine hnumbers.imp fun {k k'} hlt t ht t' ht' => ?_
  have hnumber : ∀ {k : (Nat × Nat) × Nat} {t : Nat × Nat},
      (if k.1.2 = j then (p.find? i k.1.1).map fun h => (h, k.2) else none) = some t → t.2 = k.2 := by
    intro k t ht
    obtain ⟨h, -, rfl⟩ := Option.map_eq_some_iff.mp (Option.ite_none_right_eq_some.mp ht).2
    rfl
  rw [hnumber ht, hnumber ht']
  exact hlt

/-- No two terms of an entry meet at one index. -/
theorem nodup_innerIndices (p q : Pattern) (i j : Nat) :
    ((p.entryTerms q i j).map q.innerIndex).Nodup := by
  have hnodup : (p.entryTerms q i j).Nodup :=
    (pairwise_entryTerms p q i j).imp fun hlt heq => Nat.ne_of_lt hlt (congrArg Prod.snd heq)
  refine hnodup.map_on fun t ht t' ht' heq => ?_
  obtain ⟨hp, hq⟩ := innerIndex_spec ht
  obtain ⟨hp', hq'⟩ := innerIndex_spec ht'
  rw [← heq] at hp' hq'
  have hsame : ∀ {r : Pattern} {k k' : Nat} {ij : Nat × Nat}, r.positions[k]? = some ij →
      r.positions[k']? = some ij → k = k' := fun hk hk' =>
    Option.some.inj ((find?_eq_some_iff.mpr hk).symm.trans (find?_eq_some_iff.mpr hk'))
  exact Prod.ext (hsame hp hp') (hsame hq hq')

theorem mem_innerIndices {i j l : Nat} :
    l ∈ (p.entryTerms q i j).map q.innerIndex ↔ (i, l) ∈ p.positions ∧ (l, j) ∈ q.positions := by
  rw [List.mem_map]
  constructor
  · rintro ⟨t, ht, rfl⟩
    obtain ⟨hp, hq⟩ := innerIndex_spec ht
    exact ⟨List.mem_of_getElem? hp, List.mem_of_getElem? hq⟩
  · rintro ⟨hp, hq⟩
    obtain ⟨h, hh⟩ := List.getElem?_of_mem hp
    obtain ⟨k, hk⟩ := List.getElem?_of_mem hq
    have ht : (h, k) ∈ p.entryTerms q i j := mem_entryTerms.mpr ⟨l, hk, hh⟩
    have := (innerIndex_spec ht).2
    rw [hk, Option.some.injEq, Prod.mk.injEq] at this
    exact ⟨_, ht, this.1.symm⟩

/-- Stored terms add up to an entry of the product. -/
theorem sum_entryTerms (p q : Pattern) (x y : Nat → Nat → V) (i j : Nat) :
    ((p.entryTerms q i j).map fun t => (p.elements x).getD t.1 0 * (q.elements y).getD t.2 0).sum
      = ∑ l ∈ Finset.range p.ncols, p.masked x i l * q.masked y l j := by
  have hterms : (p.entryTerms q i j).map
      (fun t => (p.elements x).getD t.1 0 * (q.elements y).getD t.2 0)
        = ((p.entryTerms q i j).map q.innerIndex).map
          fun l => p.masked x i l * q.masked y l j := by
    rw [List.map_map]
    refine List.map_congr_left fun t ht => ?_
    obtain ⟨hp, hq⟩ := innerIndex_spec ht
    rw [List.getD_eq_getElem?_getD, List.getD_eq_getElem?_getD, getElem?_elements,
      getElem?_elements, hp, hq, Function.comp, masked_of_mem (List.mem_of_getElem? hp),
      masked_of_mem (List.mem_of_getElem? hq)]
    rfl
  rw [hterms, ← List.sum_toFinset _ (nodup_innerIndices p q i j)]
  refine Finset.sum_subset (fun l hl => ?_) fun l _ hl => ?_
  · have hp := (mem_innerIndices.mp (List.mem_toFinset.mp hl)).1
    exact Finset.mem_range.mpr (column_lt_of_mem_positions hp)
  · by_cases hp : (i, l) ∈ p.positions
    · have hq : (l, j) ∉ q.positions := fun hq =>
        hl (List.mem_toFinset.mpr (mem_innerIndices.mpr ⟨hp, hq⟩))
      rw [masked_of_not_mem hq, mul_zero]
    · rw [masked_of_not_mem hp, zero_mul]

end Pattern

end Sums

namespace MatrixBuilder

variable {g : MatrixGraph} {A : Algebra Id V} {given : MatrixId → Option (List V)}
  {a b e : MatrixId} {p q : Pattern} {x y : Nat → Nat → V}

/-! ### Unary operations -/

/-- Operations that are remembered stay on record. -/
theorem keeps_rememberFolds_mem (folds : List Fold) :
    Keeps (rememberFolds folds) g fun _ h => ∀ f ∈ folds, f ∈ h.folds := by
  intro hg
  obtain ⟨hgrow, hh, -⟩ := keeps_rememberFolds (g := g) folds hg
  exact ⟨hgrow, hh, fun f hf => List.mem_append_left _ (List.mem_reverse.mpr hf)⟩

theorem evaluate_of_constant? {m : SparseMatrix Binary64} (hm : g.constant? a = some m)
    (hg : g.Admits A given) : g.evaluate A given a = m.values.map A.constant := by
  obtain ⟨n, hn, hconstant⟩ := Option.bind_eq_some_iff.mp hm
  obtain rfl : n = .constant m := by
    cases n <;> simp_all [MatrixNode.constant?]
  rw [evaluate_of_node? (hg.symbols a _ hn rfl) hn]
  rfl

theorem stores_of_unary {op : UnaryOp} (hn : g.node? e = some (.unary op a))
    (hp : g.pattern? e = some p) (ha : g.Stores A given a p x) :
    g.Stores A given e p fun r c => A.unary op (x r c) := by
  refine stores_of_node? hn hp rfl fun hg => ?_
  show (g.evaluate A given a).map (A.unary op) = _
  rw [ha.values hg]
  exact List.map_map ..

theorem stores_unaryStored {op : UnaryOp} (ha : g.Stores A given a p x)
    (hdense : op.keepsZero = false → p.isDense = true) :
    Keeps (unaryStored op a) g fun e h => h.Stores A given e p fun r c => A.unary op (x r c) := by
  refine keeps_patternOf_bind fun s hs => keeps_get_bind ?_
  obtain rfl := Option.some.inj (ha.pattern.symm.trans hs)
  split
  · rename_i m hm
    refine keeps_of_wellTyped fun hg => ?_
    obtain rfl := pattern_of_constant? hg hm ha.pattern
    refine (keeps_rememberFolds_mem _).bind fun _ h hgh hfolds => ?_
    refine stores_intern (.constant (m.map op.apply)) rfl fun k hhk hk => ?_
    have hvalues := ha.values (hk.of_within (hgh.trans hhk).within)
    rw [evaluate_of_constant? hm (hk.of_within (hgh.trans hhk).within)] at hvalues
    have hexact : (m.map op.apply).values.map A.constant
        = (m.values.map A.constant).map (A.unary op) := by
      rw [List.map_map]
      refine (List.map_map ..).trans (List.map_congr_left fun v hv => ?_)
      exact hk.exact _ (hhk.folds.mem (hfolds _ (List.mem_map_of_mem hv)))
    refine hexact.trans ?_
    rw [hvalues]
    exact List.map_map ..
  · exact (yields_intern (.unary ha.pattern hdense)).keeps.imp fun e h hgh he =>
      stores_of_unary he.1 he.2 (ha.grow hgh)

variable [CommRing V]

theorem stores_unary (hA : A.OnRing) (op : UnaryOp) (ha : g.Stores A given a q x) :
    Keeps (unary op a) g fun e h => h.Stores A given e
      (if op.keepsZero then q else .dense q.nrows q.ncols)
        fun r c => A.unary op (q.masked x r c) := by
  rw [unary_eq]
  split
  · rename_i hkeeps
    rw [pure_bind]
    exact stores_unaryStored ha.masked fun h => absurd hkeeps (by simp [h])
  · refine (stores_densify hA ha).bind fun b h _ hb => ?_
    exact stores_unaryStored hb fun _ => Pattern.isDense_dense _ _

/-! ### Binary operations -/

theorem elementwisePattern_shape {op : BinaryOp} {pa pb : Pattern}
    (hp : elementwisePattern op pa pb = .ok p) :
    p.shape = (if pa.isScalar then pb.shape else pa.shape) ∧
      (pa.shape = pb.shape ∨ pa.isScalar = true ∨ pb.isScalar = true) := by
  have hdense : ∀ {q r : Pattern}, Pattern.denseOf q.nrows q.ncols = .ok r → r.shape = q.shape := by
    intro q r h
    rw [Pattern.denseOf] at h
    split at h
    · rw [← Except.ok.inj h, Pattern.shape, Pattern.nrows_dense, Pattern.ncols_dense]
      rfl
    · contradiction
  rw [elementwisePattern] at hp
  dsimp only at hp
  split at hp
  · rename_i hshape
    refine ⟨?_, .inl hshape⟩
    have hpa : p.shape = pa.shape := by
      split at hp
      · exact hdense hp
      · have hcols : pa.columns.length = pb.columns.length := congrArg Prod.snd hshape
        split at hp
        · rw [← Except.ok.inj hp]
          simp [Pattern.shape, Pattern.ncols, Pattern.intersection, hcols]
        · rw [← Except.ok.inj hp]
          simp [Pattern.shape, Pattern.ncols, Pattern.union, hcols]
    rw [hpa, hshape, ite_self]
  · split at hp
    · rename_i hscalar
      rw [if_pos hscalar]
      refine ⟨?_, .inr (.inl hscalar)⟩
      split at hp
      · rw [Except.ok.inj hp]
      · exact hdense hp
    · rename_i hscalar
      rw [if_neg hscalar]
      split at hp
      · rename_i hscalar'
        refine ⟨?_, .inr (.inr hscalar')⟩
        split at hp
        · rw [Except.ok.inj hp]
        · exact hdense hp
      · contradiction

/-- The left operand has the shape of the result unless it is repeated. -/
theorem elementwisePattern_left {op : BinaryOp} {pa pb : Pattern}
    (hp : elementwisePattern op pa pb = .ok p) :
    pa.shape = p.shape ↔ pa.shape = pb.shape ∨ pa.isScalar = false := by
  obtain ⟨hshape, -⟩ := elementwisePattern_shape hp
  cases hscalar : pa.isScalar <;> simp [hshape, hscalar]

/-- The right operand has the shape of the result unless it is repeated. -/
theorem elementwisePattern_right {op : BinaryOp} {pa pb : Pattern}
    (hp : elementwisePattern op pa pb = .ok p) :
    pb.shape = p.shape ↔ pb.shape = pa.shape ∨ pb.isScalar = false := by
  obtain ⟨hshape, hfits⟩ := elementwisePattern_shape hp
  by_cases hsame : pb.shape = pa.shape
  · simp [hshape, hsame]
  · cases hscalar : pa.isScalar with
    | false =>
      have hscalar' := (hfits.resolve_left fun h => hsame h.symm).resolve_left (by simp [hscalar])
      simp [hshape, hscalar, hsame, hscalar']
    | true =>
      have hscalar' : pb.isScalar = false := by
        by_contra hscalar'
        rw [Pattern.isScalar, beq_iff_eq] at hscalar
        rw [Bool.not_eq_false, Pattern.isScalar, beq_iff_eq] at hscalar'
        exact hsame (hscalar'.trans hscalar.symm)
      simp [hshape, hscalar, hscalar']

/-- Nonzero by nonzero, an operand of an elementwise operation on `p` has the elements of a matrix. -/
structure Offers (g : MatrixGraph) (A : Algebra Id V) (given : MatrixId → Option (List V))
    (d : MatrixId) (p : Pattern) (x : Nat → Nat → V) : Prop where
  known : ∃ q, g.pattern? d = some q
  picks : g.Admits A given → ∀ k ij, p.positions[k]? = some ij →
    pick (A.constant 0.0) (g.evaluate A given d).toArray k = x ij.1 ij.2

omit [CommRing V] in
theorem Offers.grow {h : MatrixGraph} {d : MatrixId} (hd : Offers g A given d p x)
    (hgh : g.Grows h) : Offers h A given d p x := by
  obtain ⟨q, hq⟩ := hd.known
  refine ⟨⟨q, hgh.pattern? hq⟩, fun hh k ij hk => ?_⟩
  rw [evaluate_of_grows hgh (index_lt_of_pattern? hq)]
  exact hd.picks (hh.of_within hgh.within) k ij hk

omit [CommRing V] in
theorem offers_of_stores {d : MatrixId} (hd : g.Stores A given d p x) : Offers g A given d p x := by
  refine ⟨⟨p, hd.pattern⟩, fun hg k ij hk => ?_⟩
  have hlt : k < p.nnz := (List.getElem?_eq_some_iff.mp hk).1
  have hget : (p.elements x).getD k (A.constant 0.0) = x ij.1 ij.2 := by
    rw [List.getD_eq_getElem?_getD, Pattern.getElem?_elements, hk]
    rfl
  rw [hd.values hg, pick, List.size_toArray, Pattern.length_elements]
  split
  · have hfirst : k = 0 := by omega
    rw [Pattern.getD_toArray, ← hfirst, hget]
  · rw [Pattern.getD_toArray, hget]

omit [CommRing V] in
/-- A single element is repeated. -/
theorem offers_of_scalar {d : MatrixId} (hd : g.Stores A given d .scalar x) :
    Offers g A given d p fun _ _ => x 0 0 := by
  refine ⟨⟨_, hd.pattern⟩, fun hg k ij _ => ?_⟩
  rw [hd.values hg]
  rfl

theorem offers_operandFor (hA : A.OnRing) {own other : Pattern} (he : g.Stores A given e own x)
    (hshape : own.shape = p.shape ↔ own.shape = other.shape ∨ own.isScalar = false) :
    Keeps (operandFor e own other p) g fun d h => Offers h A given d p (own.spread p x) := by
  rw [operandFor, Pattern.spread]
  split
  · rename_i hproject
    rw [if_pos (hshape.mpr (by simpa using hproject))]
    exact (stores_project hA he p).imp fun d h _ hd => offers_of_stores hd.2
  · rename_i hrepeat
    have hrepeat : ¬ (own.shape = other.shape ∨ own.isScalar = false) := by simpa using hrepeat
    rw [if_neg fun h => hrepeat (hshape.mp h)]
    have hscalar : own.isScalar = true := by simpa using (not_or.mp hrepeat).2
    exact (stores_densify_scalar hA he hscalar).imp fun d h _ hd => offers_of_scalar hd

omit [CommRing V] in
theorem map_range_eq_elements {f : Nat → V}
    (hf : ∀ k ij, p.positions[k]? = some ij → f k = x ij.1 ij.2) :
    (List.range p.nnz).map f = p.elements x := by
  rw [Pattern.elements, eq_map_range_positions, List.map_map]
  refine List.map_congr_left fun k hk => ?_
  have hget := List.getElem?_eq_getElem (show k < p.positions.length from List.mem_range.mp hk)
  rw [hf k _ hget, Function.comp, List.getD_eq_getElem?_getD, hget]
  rfl

omit [CommRing V] in
theorem pick_map {z : Binary64} (values : List Binary64) (k : Nat) :
    pick (A.constant z) (values.map A.constant).toArray k
      = A.constant (pick z values.toArray k) := by
  have hgetD : ∀ k, (values.map A.constant).getD k (A.constant z) = A.constant (values.getD k z) :=
    fun k => List.getD_map ..
  rw [pick, pick, List.size_toArray, List.size_toArray, List.length_map]
  simp only [Pattern.getD_toArray, hgetD]
  exact (apply_ite ..).symm

omit [CommRing V] in
/-- Nonzero by nonzero, the operation is applied to elements. -/
theorem map_pick_eq_elements (op : BinaryOp) (ha : Offers g A given a p x)
    (hb : Offers g A given b p y) (hg : g.Admits A given) :
    ((List.range p.nnz).map fun k => A.binary op
      (pick (A.constant 0.0) (g.evaluate A given a).toArray k)
      (pick (A.constant 0.0) (g.evaluate A given b).toArray k))
        = p.elements fun r c => A.binary op (x r c) (y r c) :=
  map_range_eq_elements fun k ij hk => by rw [ha.picks hg k ij hk, hb.picks hg k ij hk]

omit [CommRing V] in
theorem stores_of_binary {op : BinaryOp} (hn : g.node? e = some (.binary op a b))
    (hp : g.pattern? e = some p) (ha : Offers g A given a p x) (hb : Offers g A given b p y) :
    g.Stores A given e p fun r c => A.binary op (x r c) (y r c) :=
  stores_of_node? hn hp rfl fun hg =>
    (MatrixOp.runBinary_eq ..).trans (map_pick_eq_elements op ha hb hg)

/-- **Binary operations** store the results of the operation on elements, where a 1x1 operand is
repeated. -/
theorem stores_binary (hA : A.OnRing) (op : BinaryOp) {pa pb : Pattern}
    (ha : g.Stores A given a pa x) (hb : g.Stores A given b pb y) :
    Keeps (binary op a b) g fun e h => ∃ p, elementwisePattern op pa pb = .ok p ∧
      h.Stores A given e p fun r c => A.binary op (pa.spread p x r c) (pb.spread p y r c) := by
  refine keeps_patternOf_bind fun s hs => ?_
  obtain rfl := Option.some.inj (ha.pattern.symm.trans hs)
  refine keeps_patternOf_bind fun s hs => ?_
  obtain rfl := Option.some.inj (hb.pattern.symm.trans hs)
  refine keeps_ofExcept_bind fun p hp => ?_
  refine Keeps.imp (Q := fun e h => h.Stores A given e p _) ?_ fun e h _ he => ⟨p, hp, he⟩
  refine ((keeps_operandFor ha.pattern).and
    (offers_operandFor hA ha (elementwisePattern_left hp))).bind fun a' h hgh ha' => ?_
  have hb := hb.grow hgh
  refine ((keeps_operandFor hb.pattern).and
    (offers_operandFor hA hb (elementwisePattern_right hp))).bind fun b' k hhk hb' => ?_
  obtain ⟨hprepared, hoffers⟩ := ha'
  have hprepared := hprepared.grow hhk
  have hoffers := hoffers.grow hhk
  refine keeps_get_bind (keeps_get_bind ?_)
  split
  · rename_i u v hu hv
    refine (keeps_rememberFolds_mem _).bind fun _ l hkl hfolds => ?_
    refine stores_intern (.constant _) rfl fun m hlm hm => ?_
    have hk := hm.of_within (hkl.trans hlm).within
    refine (congrArg (List.map A.constant) (SparseMatrix.values_fitted (by simp))).trans
      (Eq.trans ?_ (map_pick_eq_elements op hoffers hb'.2 hk))
    rw [evaluate_of_constant? hu hk, evaluate_of_constant? hv hk, List.map_map, List.map_map]
    refine List.map_congr_left fun n hn => ?_
    have hfold := hm.exact _ (hlm.folds.mem (hfolds _
      (List.mem_map_of_mem (List.mem_map_of_mem hn))))
    rw [pick_map, pick_map]
    exact hfold
  · exact (yields_intern (.binary hprepared.fits hb'.1.fits (hprepared.on hb'.1))).keeps.imp
      fun e l hkl he => stores_of_binary he.1 he.2 (hoffers.grow hkl) (hb'.2.grow hkl)

/-! ### Products and sums -/

theorem stores_of_product (hA : A.OnRing) {pa pb : Pattern}
    (hn : g.node? e = some (.product a b)) (hp : g.pattern? e = some (pa.product pb))
    (ha : g.Stores A given a pa x) (hb : g.Stores A given b pb y) :
    g.Stores A given e (pa.product pb) fun i j =>
      ∑ l ∈ Finset.range pa.ncols, pa.masked x i l * pb.masked y l j := by
  refine stores_of_node? hn hp rfl fun hg => ?_
  show Id.run (MatrixOp.runProduct A (A.constant 0.0) (MatrixTape.patternIn g a)
    (MatrixTape.patternIn g b) (pa.product pb) (g.evaluate A given a) (g.evaluate A given b)) = _
  rw [patternIn_eq ha.pattern, patternIn_eq hb.pattern, ha.values hg, hb.values hg]
  refine List.ext_getElem? fun r => ?_
  rw [Pattern.getElem?_elements]
  cases hr : (pa.product pb).positions[r]? with
  | none =>
    rw [List.getElem?_eq_none]
    · rfl
    · rw [MatrixOp.length_runProduct]
      exact List.getElem?_eq_none_iff.mp hr
  | some ij =>
    rw [MatrixOp.getElem?_runProduct _ _ hr, hA.sumOf_getD, Option.map_some,
      ← Pattern.sum_entryTerms pa pb x y ij.1 ij.2, hA.zero]
    exact congrArg (fun terms => some (List.sum terms))
      (List.map_congr_left fun t _ => hA.mul _ _)

theorem stores_product (hA : A.OnRing) {pa pb : Pattern} (ha : g.Stores A given a pa x)
    (hb : g.Stores A given b pb y) :
    Keeps (product a b) g fun e h => pa.productOf pb = .ok (pa.product pb) ∧
      h.Stores A given e (pa.product pb) fun i j =>
        ∑ l ∈ Finset.range pa.ncols, pa.masked x i l * pb.masked y l j := by
  refine keeps_patternOf_bind fun s hs => ?_
  obtain rfl := Option.some.inj (ha.pattern.symm.trans hs)
  refine keeps_patternOf_bind fun s hs => ?_
  obtain rfl := Option.some.inj (hb.pattern.symm.trans hs)
  split
  · exact keeps_throw _
  · rename_i hinner
    refine keeps_ofExcept_bind fun p hp => ?_
    obtain rfl := product_of_productOf hp
    exact (yields_intern (.product ha.pattern hb.pattern (not_not.mp hinner))).keeps.imp
      fun e h hgh he => ⟨hp, stores_of_product hA he.1 he.2 (ha.grow hgh) (hb.grow hgh)⟩

theorem stores_of_scatter (hA : A.OnRing) {map : ScatterMap}
    (hn : g.node? e = some (.scatter a map p)) (hp : g.pattern? e = some p)
    (ha : g.Stores A given a q x) (hlength : map.length = q.nnz)
    (hy : ∀ r ij, p.positions[r]? = some ij →
      y ij.1 ij.2 = ((map.termsAt r).map fun k => (q.elements x).getD k 0).sum) :
    g.Stores A given e p y := by
  refine stores_of_node? hn hp rfl fun hg => ?_
  show Id.run (MatrixOp.runScatter A (A.constant 0.0) map p (g.evaluate A given a)) = _
  rw [ha.values hg]
  refine List.ext_getElem? fun r => ?_
  rw [Pattern.getElem?_elements]
  cases hr : p.positions[r]? with
  | none =>
    rw [List.getElem?_eq_none]
    · rfl
    · rw [MatrixOp.length_runScatter]
      exact List.getElem?_eq_none_iff.mp hr
  | some ij =>
    have hlt : r < p.nnz := (List.getElem?_eq_some_iff.mp hr).1
    rw [MatrixOp.getElem?_runScatter (by rw [hlength, Pattern.length_elements]) hlt,
      hA.sumOf_getD, Option.map_some, hy r ij hr, hA.zero]

theorem stores_scatter (hA : A.OnRing) {map : ScatterMap} (ha : g.Stores A given a q x)
    (hlength : map.length = q.nnz) (htargets : ∀ k, some k ∈ map → k < p.nnz)
    (hy : ∀ r ij, p.positions[r]? = some ij →
      y ij.1 ij.2 = ((map.termsAt r).map fun k => (q.elements x).getD k 0).sum) :
    Keeps (scatter a map p) g fun e h => h.Stores A given e p y := by
  rw [scatter]
  split
  · rename_i hnone
    refine stores_zero hA fun i j hij => ?_
    obtain ⟨r, hr⟩ := List.getElem?_of_mem hij
    have hterms : map.termsAt r = [] := by
      refine List.eq_nil_iff_forall_not_mem.mpr fun k hk => ?_
      have hentry := List.mem_of_getElem? (MatrixOp.mem_termsAt.mp hk)
      simpa using List.all_eq_true.mp hnone _ hentry
    rw [hy r (i, j) hr, hterms]
    rfl
  · exact (yields_intern (.scatter ha.pattern hlength htargets)).keeps.imp
      fun e h hgh he => stores_of_scatter hA he.1 he.2 (ha.grow hgh) hlength hy

theorem termsAt_replicate (n : Nat) :
    ScatterMap.termsAt (List.replicate n (some 0)) 0 = List.range n := by
  have hreplicate : List.replicate n (some 0) = (List.range n).map fun _ => some 0 := by
    rw [List.map_const', List.length_range]
  rw [ScatterMap.termsAt, hreplicate, zipIdx_map_range, List.filterMap_map]
  exact List.filterMap_some

theorem stores_sum (hA : A.OnRing) (ha : g.Stores A given a q x) :
    Keeps (sum a) g fun e h => h.Stores A given e .scalar fun _ _ =>
      ∑ r ∈ Finset.range q.nrows, ∑ c ∈ Finset.range q.ncols, q.masked x r c := by
  refine keeps_patternOf_bind fun s hs => ?_
  obtain rfl := Option.some.inj (ha.pattern.symm.trans hs)
  refine stores_scatter hA ha (List.length_replicate ..) (fun k hk => ?_) fun r ij hr => ?_
  · obtain rfl := Option.some.inj (List.eq_of_mem_replicate hk)
    decide
  · have hzero : r = 0 := Nat.lt_one_iff.mp (List.getElem?_eq_some_iff.mp hr).1
    have hself : (List.range q.nnz).map (fun k => (q.elements x).getD k 0) = q.elements x := by
      refine map_range_eq_elements fun k ij hk => ?_
      rw [List.getD_eq_getElem?_getD, Pattern.getElem?_elements, hk]
      rfl
    rw [hzero, termsAt_replicate, hself, Pattern.sum_elements]

omit [CommRing V] in
theorem stores_of_lift {guess : MatrixId} (hn : g.node? e = some (.lift a guess))
    (hp : g.pattern? e = some p) (ha : g.Stores A given a p x) : g.Stores A given e p x :=
  stores_of_node? hn hp rfl ha.values

omit [CommRing V] in
theorem stores_lift {guess : MatrixId} (ha : g.Stores A given a p x) :
    Keeps (lift a guess) g fun e h => h.Stores A given e p x := by
  refine keeps_patternOf_bind fun s hs => ?_
  obtain rfl := Option.some.inj (ha.pattern.symm.trans hs)
  refine keeps_patternOf_bind fun s hs => ?_
  split
  · exact keeps_throw _
  · refine (keeps_project guess p).bind fun d h hgh hd => ?_
    have ha := ha.grow hgh
    exact (yields_intern (.lift ha.pattern hd)).keeps.imp
      fun e k hhk he => stores_of_lift he.1 he.2 (ha.grow hhk)

end MatrixBuilder

end Fluxion
