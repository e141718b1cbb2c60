import Fluxion.Proofs.Matrix.Operations
import Fluxion.Proofs.Matrix.Related

/-!
# Derivatives of matrix expressions along a direction

When the values that are given for symbols move in a direction, every element of every expression
moves. How it does is found by evaluating the expression over dual numbers. Each kind of node has a
rule for it: an elementwise operation multiplies by partial derivatives, a product moves in either
factor, and what only rearranges or adds up nonzeros does the same with their derivatives.

## Main definitions

* `MatrixGraph.elementOf` — an expression as a matrix, zero where nothing is stored
* `MatrixGraph.moving` — given values that move
* `MatrixGraph.tangentOf` — the derivative of an expression along a direction

## Main results

* `MatrixGraph.Admits.moving` — values that move can be given, too
* `MatrixGraph.tangentOf_unary`, `MatrixGraph.tangentOf_binary`, `MatrixGraph.tangentOf_product`,
  `MatrixGraph.tangentOf_gather`, `MatrixGraph.tangentOf_scatter` — **the rules**
-/

namespace Fluxion

open MatrixBuilder

/-! ### Elements of expressions -/

namespace MatrixGraph

section Elements

variable {W : Type} [Zero W] {g h : MatrixGraph} {A : Algebra Id W}
  {given given' : MatrixId → Option (List W)} {e a : MatrixId} {p q : Pattern} {x : Nat → Nat → W}
  {r c k : Nat}

/-- The element of an expression at a place, zero if it is not stored. -/
def elementOf (g : MatrixGraph) (A : Algebra Id W) (given : MatrixId → Option (List W))
    (e : MatrixId) (r c : Nat) : W :=
  ((MatrixTape.patternIn g e).find? r c).elim 0 ((g.evaluate A given e).getD · 0)

theorem elementOf_of_getElem? (hp : g.pattern? e = some p) {ij : Nat × Nat}
    (hk : p.positions[k]? = some ij) :
    g.elementOf A given e ij.1 ij.2 = (g.evaluate A given e).getD k 0 := by
  rw [elementOf, patternIn_eq hp, Pattern.find?_eq_some_iff.mpr hk]
  rfl

theorem elementOf_of_not_mem (hp : g.pattern? e = some p) (h : (r, c) ∉ p.positions) :
    g.elementOf A given e r c = 0 := by
  rw [elementOf, patternIn_eq hp, Pattern.find?_eq_none_iff.mpr h]
  rfl

/-- What an expression does not store counts as zero already. -/
theorem masked_elementOf (hp : g.pattern? e = some p) :
    p.masked (g.elementOf A given e) = g.elementOf A given e := by
  funext r c
  by_cases h : (r, c) ∈ p.positions
  · exact Pattern.masked_of_mem h
  · rw [Pattern.masked_of_not_mem h, elementOf_of_not_mem hp h]

/-- An expression stores its elements. -/
theorem stores_elementOf (hg : g.WellTyped) (hp : g.pattern? e = some p) :
    g.Stores A given e p (g.elementOf A given e) := by
  refine ⟨hp, fun hadm => ?_⟩
  have hlength := hg.length_evaluate (A := A) hadm.fits hp
  refine List.ext_getElem? fun k => ?_
  rw [Pattern.getElem?_elements]
  cases hk : p.positions[k]? with
  | none => exact List.getElem?_eq_none (hlength ▸ List.getElem?_eq_none_iff.mp hk)
  | some ij =>
    have hlt : k < (g.evaluate A given e).length :=
      hlength ▸ (List.getElem?_eq_some_iff.mp hk).1
    rw [Option.map_some, elementOf_of_getElem? hp hk, List.getElem?_eq_getElem hlt,
      List.getD_eq_getElem _ _ hlt]

theorem Stores.elementOf_eq (he : g.Stores A given e p x) (hadm : g.Admits A given)
    (h : (r, c) ∈ p.positions) : g.elementOf A given e r c = x r c := by
  obtain ⟨k, hk⟩ := List.getElem?_of_mem h
  rw [elementOf_of_getElem? he.pattern hk, he.values hadm, List.getD_eq_getElem?_getD,
    Pattern.getElem?_elements, hk]
  rfl

theorem elementOf_congr_given (hgrow : g.Grows h)
    (hgiven : ∀ a : MatrixId, a.index < g.size → given' a = given a) (hp : g.pattern? e = some p) :
    h.elementOf A given' e = g.elementOf A given e := by
  funext r c
  rw [elementOf, elementOf, patternIn_eq hp, patternIn_eq (hgrow.pattern? hp),
    evaluate_congr_given hgrow.arena.agreeBelow hgiven (index_lt_of_pattern? hp)]

theorem elementOf_of_grows (hgrow : g.Grows h) (hp : g.pattern? e = some p) :
    h.elementOf A given e = g.elementOf A given e :=
  elementOf_congr_given hgrow (fun _ _ => rfl) hp

/-- What an entry of a gather map leads to in the matrices of the arguments. -/
def sourceOf (g : MatrixGraph) (arguments : List MatrixId) (x : MatrixId → Nat → Nat → W) :
    Option (Nat × Nat) → W
  | none => 0
  | some (i, k) => arguments[i]?.elim 0 fun a =>
    (MatrixTape.patternIn g a).positions[k]?.elim 0 fun ij => x a ij.1 ij.2

theorem sourceOf_of_some {arguments : List MatrixId} {x : MatrixId → Nat → Nat → W} {i : Nat}
    {ij : Nat × Nat} (ha : arguments[i]? = some a) (hq : g.pattern? a = some q)
    (hk : q.positions[k]? = some ij) : g.sourceOf arguments x (some (i, k)) = x a ij.1 ij.2 := by
  rw [sourceOf, ha, Option.elim_some, patternIn_eq hq, hk]
  rfl

/-- A gather has the elements that its map leads to. -/
theorem elementOf_gather (hadm : g.Admits A given) (hzero : A.constant 0.0 = 0)
    {arguments : List MatrixId} {map : GatherMap} (hn : g.node? e = some (.gather arguments map q))
    (hp : g.pattern? e = some p) (hmap : g.Gathers arguments map p) :
    List.Forall₂ (fun entry ij => g.elementOf A given e ij.1 ij.2
      = g.sourceOf arguments (g.elementOf A given) entry) map p.positions := by
  refine List.forall₂_iff_get.mpr ⟨hmap.length, fun k hk hk' => ?_⟩
  have hposition : p.positions[k]? = some (p.positions.get ⟨k, hk'⟩) := List.getElem?_eq_getElem hk'
  have hvalue : g.evaluate A given e = MatrixOp.runGather (A.constant 0.0) map
      (arguments.map (g.evaluate A given)) := by
    rw [evaluate_of_node? (hadm.symbols e _ hn rfl) hn]
    rfl
  have hmem : map.get ⟨k, hk⟩ ∈ map := List.get_mem ..
  have hentry : map[k]? = some (map.get ⟨k, hk⟩) := List.getElem?_eq_getElem hk
  rw [elementOf_of_getElem? hp hposition, hvalue, MatrixOp.runGather, List.getD_eq_getElem?_getD,
    List.getElem?_map, hentry, Option.map_some, Option.getD_some]
  generalize map.get ⟨k, hk⟩ = entry at hmem
  cases entry with
  | none => exact hzero
  | some t =>
    obtain ⟨i, l⟩ := t
    obtain ⟨a, s, ha, hs, hl⟩ := hmap.reaches i l hmem
    have hl := List.getElem?_eq_getElem (show l < s.positions.length from hl)
    have hsource : ((((arguments.map (g.evaluate A given)).map List.toArray).toArray).getD i #[])
        = (g.evaluate A given a).toArray := by
      rw [Pattern.getD_toArray, List.getD_eq_getElem?_getD, List.getElem?_map, List.getElem?_map, ha]
      rfl
    rw [sourceOf_of_some ha hs hl, elementOf_of_getElem? hs hl, ← hzero, ← Pattern.getD_toArray,
      ← hsource]
    rfl

/-- An operand of an elementwise operation offers its elements, its only one repeatedly if its
shape is another one. -/
theorem offers_of_fits (hfits : g.Fits p a) (ha : g.Stores A given a q x) :
    Offers g A given a p (q.spread p x) := by
  rcases hfits with hp | hscalar
  · obtain rfl := Option.some.inj (ha.pattern.symm.trans hp)
    rw [Pattern.spread, if_pos rfl]
    exact offers_of_stores ha.masked
  · obtain rfl := Option.some.inj (ha.pattern.symm.trans hscalar)
    refine ⟨⟨_, hscalar⟩, fun hadm k ij hk => ?_⟩
    rw [(offers_of_scalar ha.masked).picks hadm k ij hk, Pattern.spread]
    split
    · rename_i hshape
      have hmem := List.mem_of_getElem? hk
      have hrow := Pattern.row_lt_of_mem_positions hmem
      have hcolumn := Pattern.column_lt_of_mem_positions hmem
      have hrows : 1 = p.nrows := congrArg Prod.fst hshape
      have hcolumns : 1 = p.ncols := congrArg Prod.snd hshape
      rw [show ij.1 = 0 by omega, show ij.2 = 0 by omega]
    · rfl

end Elements

/-! ### Directions -/

variable {V : Type} [CommRing V] {g h : MatrixGraph} {I : Interpretation V}
  {given : MatrixId → Option (List V)} {dx : MatrixId → Nat → V} {e a b : MatrixId}
  {p q : Pattern} {r c : Nat}

/-- The values that are given, when the nonzeros of each expression move in a direction. -/
def moving (given : MatrixId → Option (List V)) (dx : MatrixId → Nat → V) (e : MatrixId) :
    Option (List (DualNumber V)) :=
  (given e).map fun values => values.zipIdx.map fun t => dualOf t.1 (dx e t.2)

/-- What was folded exactly over the ring was folded exactly over dual numbers. -/
theorem exact_dual {folds : List Fold} (hexact : I.algebra.Exact folds) :
    I.dualAlgebra.Exact folds := by
  intro f hf
  have hfold : I.ExactFold f := by
    have := hexact f hf
    cases f <;> exact this
  have hdual := hfold.dual
  cases f <;> exact hdual

/-- Values that move are admitted where values are. -/
theorem Admits.moving (hg : g.Admits I.algebra given) (dx : MatrixId → Nat → V) :
    g.Admits I.dualAlgebra (moving given dx) where
  symbols e n hn hsymbol := by rw [MatrixGraph.moving, hg.symbols e n hn hsymbol]; rfl
  fits e values p hvalues hp := by
    obtain ⟨xs, hxs, rfl⟩ := Option.map_eq_some_iff.mp hvalues
    rw [List.length_map, List.length_zipIdx]
    exact hg.fits e xs p hxs hp
  exact := exact_dual hg.exact

/-- The derivative of an expression along a direction, zero where nothing is stored. -/
def tangentOf (g : MatrixGraph) (I : Interpretation V) (given : MatrixId → Option (List V))
    (dx : MatrixId → Nat → V) (e : MatrixId) (r c : Nat) : V :=
  (g.elementOf I.dualAlgebra (moving given dx) e r c).snd

/-- Over dual numbers and over the ring, values are the same. -/
theorem related_fst (I : Interpretation V) :
    Algebra.Related (fun (x : DualNumber V) v => x.fst = v) I.dualAlgebra I.algebra where
  constant _ := rfl
  unary op {x _} hx := hx ▸ Interpretation.fst_dual_unary op x
  binary op {x x' _ _} hx hy := hx ▸ hy ▸ Interpretation.fst_dual_binary op x x'

theorem forall₂_fst_evaluate (dx : MatrixId → Nat → V) (e : MatrixId) :
    List.Forall₂ (fun (x : DualNumber V) v => x.fst = v)
      (g.evaluate I.dualAlgebra (moving given dx) e) (g.evaluate I.algebra given e) := by
  refine g.related_evaluate (related_fst I) (fun e => ?_) e
  rw [moving]
  cases given e with
  | none => exact .none
  | some values =>
    refine .some (List.forall₂_map_left_iff.mpr ?_)
    refine List.forall₂_iff_get.mpr ⟨List.length_zipIdx, fun k hk hk' => ?_⟩
    simp

@[simp] theorem fst_elementOf :
    (g.elementOf I.dualAlgebra (moving given dx) e r c).fst = g.elementOf I.algebra given e r c := by
  rw [elementOf, elementOf]
  cases (MatrixTape.patternIn g e).find? r c with
  | none => rfl
  | some k => exact forall₂_getD (forall₂_fst_evaluate dx e) rfl k

theorem tangentOf_of_not_mem (hp : g.pattern? e = some p) (h : (r, c) ∉ p.positions) :
    g.tangentOf I given dx e r c = 0 := by
  rw [tangentOf, elementOf_of_not_mem hp h]
  rfl

theorem masked_tangentOf (hp : g.pattern? e = some p) :
    p.masked (g.tangentOf I given dx e) = g.tangentOf I given dx e := by
  funext r c
  by_cases h : (r, c) ∈ p.positions
  · exact Pattern.masked_of_mem h
  · rw [Pattern.masked_of_not_mem h, tangentOf_of_not_mem hp h]

theorem masked_map {W : Type} [Zero W] {f : V → W} (hf : f 0 = 0) (p : Pattern)
    (x : Nat → Nat → V) (r c : Nat) : f (p.masked x r c) = p.masked (fun r c => f (x r c)) r c := by
  by_cases h : (r, c) ∈ p.positions
  · rw [Pattern.masked_of_mem h, Pattern.masked_of_mem h]
  · rw [Pattern.masked_of_not_mem h, Pattern.masked_of_not_mem h, hf]

theorem spread_map {W : Type} [Zero W] {f : V → W} (hf : f 0 = 0) (q p : Pattern)
    (x : Nat → Nat → V) (r c : Nat) :
    f (q.spread p x r c) = q.spread p (fun r c => f (x r c)) r c := by
  rw [Pattern.spread, Pattern.spread]
  split
  · exact masked_map hf q x r c
  · exact masked_map hf q x 0 0

/-- The rules that values and derivatives follow need the graph to be well typed and to admit what
is given. -/
structure Sound (g : MatrixGraph) (I : Interpretation V) (given : MatrixId → Option (List V)) :
    Prop where
  typed : g.WellTyped
  admits : g.Admits I.algebra given

namespace Sound

variable (hg : g.Sound I given)

include hg

theorem stores (hp : g.pattern? e = some p) (dx : MatrixId → Nat → V) :
    g.Stores I.dualAlgebra (MatrixGraph.moving given dx) e p
      (g.elementOf I.dualAlgebra (MatrixGraph.moving given dx) e) :=
  stores_elementOf hg.typed hp

end Sound

/-! ### The rules -/

/-- Constants do not move. -/
theorem tangentOf_constant (hg : g.Sound I given) {m : SparseMatrix Binary64}
    (hn : g.node? e = some (.constant m)) : g.tangentOf I given dx e = 0 := by
  funext r c
  have hvalue : g.evaluate I.dualAlgebra (moving given dx) e = m.values.map I.dual.literal :=
    evaluate_of_node? ((hg.admits.moving dx).symbols e _ hn rfl) hn
  rw [tangentOf, elementOf, hvalue]
  cases (MatrixTape.patternIn g e).find? r c with
  | none => rfl
  | some k =>
    rw [Option.elim_some, List.getD_eq_getElem?_getD, List.getElem?_map]
    cases m.values[k]? <;> rfl

/-- Values that are given move as the direction says. -/
theorem tangentOf_given {values : List V} (hvalues : given e = some values)
    (hg : g.Sound I given) (hp : g.pattern? e = some p) {k : Nat} {ij : Nat × Nat}
    (hk : p.positions[k]? = some ij) : g.tangentOf I given dx e ij.1 ij.2 = dx e k := by
  have hvalue : g.evaluate I.dualAlgebra (moving given dx) e
      = values.zipIdx.map fun t => dualOf t.1 (dx e t.2) := by
    refine evaluate_of_given ?_
    rw [moving, hvalues]
    rfl
  have hlt : k < values.length := by
    rw [hg.admits.fits e values p hvalues hp]
    exact (List.getElem?_eq_some_iff.mp hk).1
  rw [tangentOf, elementOf_of_getElem? hp hk, hvalue, List.getD_eq_getElem?_getD,
    List.getElem?_map, List.getElem?_zipIdx, List.getElem?_eq_getElem hlt, Nat.zero_add]
  rfl

/-- Symbols that nothing is given for do not move. -/
theorem tangentOf_symbol (hgiven : given e = none) {serial : Nat}
    (hn : g.node? e = some (.symbol serial q)) : g.tangentOf I given dx e = 0 := by
  funext r c
  have hvalue : g.evaluate I.dualAlgebra (moving given dx) e
      = List.replicate (MatrixTape.patternIn g e).nnz (I.dual.literal 0.0) :=
    evaluate_of_node? (by rw [moving, hgiven]; rfl) hn
  rw [tangentOf, elementOf, hvalue]
  cases (MatrixTape.patternIn g e).find? r c with
  | none => rfl
  | some k =>
    rw [Option.elim_some, List.getD_eq_getElem?_getD, List.getElem?_replicate]
    split <;> rfl

theorem tangentOf_unary (hg : g.Sound I given) {op : UnaryOp}
    (hn : g.node? e = some (.unary op a)) (hp : g.pattern? e = some p)
    (ha : g.pattern? a = some p) (h : (r, c) ∈ p.positions) :
    g.tangentOf I given dx e r c
      = I.unaryPartial op (g.elementOf I.algebra given a r c) (g.elementOf I.algebra given e r c)
        * g.tangentOf I given dx a r c := by
  have hdual := (stores_of_unary hn hp (hg.stores ha dx)).elementOf_eq (hg.admits.moving dx) h
  have hvalue := (stores_of_unary hn hp (stores_elementOf hg.typed ha)).elementOf_eq hg.admits h
  rw [tangentOf, hdual, hvalue]
  refine (I.snd_dual_unary op _).trans ?_
  rw [fst_elementOf]
  rfl

theorem tangentOf_binary (hg : g.Sound I given) {op : BinaryOp} {pa pb : Pattern}
    (hn : g.node? e = some (.binary op a b)) (hp : g.pattern? e = some p)
    (ha : g.pattern? a = some pa) (hb : g.pattern? b = some pb) (hfa : g.Fits p a)
    (hfb : g.Fits p b) (h : (r, c) ∈ p.positions) :
    g.tangentOf I given dx e r c
      = I.binaryPartial op .left (pa.spread p (g.elementOf I.algebra given a) r c)
          (pb.spread p (g.elementOf I.algebra given b) r c) (g.elementOf I.algebra given e r c)
          * pa.spread p (g.tangentOf I given dx a) r c
        + I.binaryPartial op .right (pa.spread p (g.elementOf I.algebra given a) r c)
          (pb.spread p (g.elementOf I.algebra given b) r c) (g.elementOf I.algebra given e r c)
          * pb.spread p (g.tangentOf I given dx b) r c := by
  have hdual := (stores_of_binary hn hp (offers_of_fits hfa (hg.stores ha dx))
    (offers_of_fits hfb (hg.stores hb dx))).elementOf_eq (hg.admits.moving dx) h
  have hvalue := (stores_of_binary hn hp (offers_of_fits hfa (stores_elementOf hg.typed ha))
    (offers_of_fits hfb (stores_elementOf hg.typed hb))).elementOf_eq hg.admits h
  rw [tangentOf, hdual, hvalue]
  refine (I.snd_dual_binary op _ _).trans ?_
  rw [spread_map (f := TrivSqZeroExt.fst) rfl, spread_map (f := TrivSqZeroExt.fst) rfl,
    spread_map (f := TrivSqZeroExt.snd) rfl, spread_map (f := TrivSqZeroExt.snd) rfl]
  simp only [fst_elementOf]
  rfl

theorem tangentOf_product (hg : g.Sound I given) {pa pb : Pattern}
    (hn : g.node? e = some (.product a b)) (hp : g.pattern? e = some (pa.product pb))
    (ha : g.pattern? a = some pa) (hb : g.pattern? b = some pb)
    (h : (r, c) ∈ (pa.product pb).positions) :
    g.tangentOf I given dx e r c = ∑ l ∈ Finset.range pa.ncols,
      (g.tangentOf I given dx a r l * g.elementOf I.algebra given b l c
        + g.elementOf I.algebra given a r l * g.tangentOf I given dx b l c) := by
  have hdual := (stores_of_product I.dual.simplifies.toOnRing hn hp (hg.stores ha dx)
    (hg.stores hb dx)).elementOf_eq (hg.admits.moving dx) h
  rw [tangentOf, hdual, masked_elementOf ha, masked_elementOf hb, TrivSqZeroExt.snd_sum]
  refine Finset.sum_congr rfl fun l _ => ?_
  rw [DualNumber.snd_mul, fst_elementOf, fst_elementOf, add_comm]
  rfl

theorem tangentOf_gather (hg : g.Sound I given) (dx : MatrixId → Nat → V) {arguments : List MatrixId} {map : GatherMap}
    (hn : g.node? e = some (.gather arguments map q)) (hp : g.pattern? e = some p)
    (hmap : g.Gathers arguments map p) :
    List.Forall₂ (fun entry ij => g.tangentOf I given dx e ij.1 ij.2
      = g.sourceOf arguments (g.tangentOf I given dx) entry) map p.positions := by
  refine (elementOf_gather (hg.admits.moving dx) I.dual.literal_zero hn hp hmap).imp
    fun entry ij h => ?_
  rw [tangentOf, h]
  cases entry with
  | none => rfl
  | some t =>
    simp only [sourceOf]
    cases arguments[t.1]? with
    | none => rfl
    | some a =>
      rw [Option.elim_some, Option.elim_some]
      cases (MatrixTape.patternIn g a).positions[t.2]? <;> rfl

theorem tangentOf_scatter (hg : g.Sound I given) (dx : MatrixId → Nat → V) {map : ScatterMap}
    (hn : g.node? e = some (.scatter a map p)) (hp : g.pattern? e = some p)
    (ha : g.pattern? a = some q) (hlength : map.length = q.nnz) {k : Nat} {ij : Nat × Nat}
    (hk : p.positions[k]? = some ij) :
    g.tangentOf I given dx e ij.1 ij.2
      = ((map.termsAt k).map fun l => (q.elements (g.tangentOf I given dx a)).getD l 0).sum := by
  have hplaces : ∀ k ij, p.positions[k]? = some ij →
      g.elementOf I.dualAlgebra (moving given dx) e ij.1 ij.2 = ((map.termsAt k).map fun l =>
        (q.elements (g.elementOf I.dualAlgebra (moving given dx) a)).getD l 0).sum := by
    intro k ij hk
    have hvalue := (hg.stores ha dx).values (hg.admits.moving dx)
    have hlt : k < p.nnz := (List.getElem?_eq_some_iff.mp hk).1
    have hA := I.dual.simplifies.toOnRing
    have hrun : g.evaluate I.dualAlgebra (moving given dx) e
        = Id.run (MatrixOp.runScatter I.dualAlgebra (I.dualAlgebra.constant 0.0) map p
          (g.evaluate I.dualAlgebra (moving given dx) a)) := by
      rw [evaluate_of_node? ((hg.admits.moving dx).symbols e _ hn rfl) hn, patternIn_eq hp]
      rfl
    rw [elementOf_of_getElem? hp hk, hrun, List.getD_eq_getElem?_getD,
      MatrixOp.getElem?_runScatter (by rw [hlength, hvalue, Pattern.length_elements]) hlt,
      Option.getD_some, hA.sumOf_getD, hvalue, hA.zero]
  rw [tangentOf, hplaces k ij hk, ← TrivSqZeroExt.sndHom_apply, map_list_sum, List.map_map]
  refine congrArg List.sum (List.map_congr_left fun l _ => ?_)
  rw [Function.comp_apply, TrivSqZeroExt.sndHom_apply, List.getD_eq_getElem?_getD,
    List.getD_eq_getElem?_getD, Pattern.getElem?_elements, Pattern.getElem?_elements]
  cases q.positions[l]? <;> rfl

theorem tangentOf_lift (hg : g.Sound I given) {guess : MatrixId}
    (hn : g.node? e = some (.lift a guess)) (hp : g.pattern? e = some p)
    (ha : g.pattern? a = some p) : g.tangentOf I given dx e = g.tangentOf I given dx a := by
  funext r c
  by_cases h : (r, c) ∈ p.positions
  · rw [tangentOf, (stores_of_lift hn hp (hg.stores ha dx)).elementOf_eq (hg.admits.moving dx) h]
    rfl
  · rw [tangentOf_of_not_mem hp h, tangentOf_of_not_mem ha h]

end MatrixGraph

end Fluxion
