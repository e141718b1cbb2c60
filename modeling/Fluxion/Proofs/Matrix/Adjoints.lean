import Fluxion.Proofs.Matrix.Directions

/-!
# Adjoints of the rules for derivatives

The rule for the derivative of a node is linear in the derivatives of the operands. Paired with weights
for the elements of the node, it is a sum over the operands: each has weights of its own, paired with its
derivative. These are the weights that a reverse sweep hands on: a product hands on products with
transposed factors, an operand that was repeated gets a sum, and what was rearranged goes back to where
it came from.

## Main results

* `Pattern.pairing_masked`, `Pattern.pairing_spread_scalar` — pairings on smaller patterns
* `ScatterMap.sum_termsAt_mul` — sums in place, paired with values
* `MatrixGraph.pairing_unary`, `MatrixGraph.pairing_binary`, `MatrixGraph.pairing_product`,
  `MatrixGraph.pairing_gather`, `MatrixGraph.pairing_scatter` — **adjoints of the rules**
-/

namespace Fluxion

open Finset

variable {V : Type} [CommRing V]

/-! ### Sums over lists -/

theorem sum_map_filterMap {α β : Type} (f : α → Option β) (w : β → V) (l : List α) :
    ((l.filterMap f).map w).sum = (l.map fun a => (f a).elim 0 w).sum := by
  induction l with
  | nil => rfl
  | cons a rest ih =>
    rw [List.filterMap_cons, List.map_cons, List.sum_cons, ← ih]
    cases f a with
    | none => exact (zero_add _).symm
    | some b => exact List.sum_cons ..

theorem sum_map_zipIdx {α : Type} (l : List α) (w : α × Nat → V) :
    (l.zipIdx.map w).sum = ∑ k ∈ range l.length, (l[k]?).elim 0 fun a => w (a, k) := by
  rw [Pattern.sum_range_getD _ l.length (by simp)]
  refine sum_congr rfl fun k _ => ?_
  rw [List.getD_eq_getElem?_getD, List.getElem?_map, List.getElem?_zipIdx, Nat.zero_add]
  cases l[k]? <;> rfl

/-- Sums in place, each times a value of its place, are values times that of the place that they are
sent to. -/
theorem ScatterMap.sum_termsAt_mul (map : ScatterMap) {n : Nat} (htargets : ∀ k, some k ∈ map → k < n)
    (w t : Nat → V) :
    ∑ r ∈ range n, ((map.termsAt r).map w).sum * t r
      = ∑ l ∈ range map.length, w l * (map.getD l none).elim 0 t := by
  have hterms : ∀ r, ((map.termsAt r).map w).sum
      = ∑ l ∈ range map.length, if map.getD l none = some r then w l else 0 := by
    intro r
    rw [termsAt, sum_map_filterMap, sum_map_zipIdx]
    refine sum_congr rfl fun l hl => ?_
    have hget := List.getElem?_eq_getElem (mem_range.mp hl)
    rw [getD_of_getElem? hget, hget, Option.elim_some]
    dsimp only
    split <;> rfl
  simp only [hterms, sum_mul]
  rw [sum_comm]
  refine sum_congr rfl fun l hl => ?_
  have hmem : map.getD l none ∈ map := by
    rw [List.getD_eq_getElem _ _ (mem_range.mp hl)]
    exact List.getElem_mem _
  cases htarget : map.getD l none with
  | none => simp
  | some k =>
    rw [sum_eq_single k]
    · rw [if_pos rfl, Option.elim_some]
    · intro r _ hne
      rw [if_neg fun heq => hne (Option.some.inj heq).symm, zero_mul]
    · exact fun hk => absurd (mem_range.mpr (htargets k (htarget ▸ hmem))) hk

/-! ### Pairings -/

namespace Pattern

variable {p q : Pattern} {x y : Nat → Nat → V}

theorem pairing_of_positions (h : q.positions = p.positions) : q.pairing x y = p.pairing x y := by
  rw [pairing, pairing, elements, elements, h]

theorem masked_of_positions (h : q.positions = p.positions) : q.masked x = p.masked x := by
  funext r c
  rw [masked, masked, h]

theorem pairing_add_left (x' : Nat → Nat → V) :
    p.pairing (fun r c => x r c + x' r c) y = p.pairing x y + p.pairing x' y := by
  simp only [pairing, elements, add_mul]
  exact List.sum_map_add

theorem pairing_add_right (y' : Nat → Nat → V) :
    p.pairing x (fun r c => y r c + y' r c) = p.pairing x y + p.pairing x y' := by
  simp only [pairing, elements, mul_add]
  exact List.sum_map_add

theorem pairing_mul_right (u : Nat → Nat → V) :
    p.pairing x (fun r c => u r c * y r c) = p.pairing (fun r c => u r c * x r c) y := by
  refine congrArg List.sum (elements_congr fun r c _ => ?_)
  rw [← mul_assoc, mul_comm (x r c)]

theorem pairing_eq_zero (h : ∀ r c, (r, c) ∈ p.positions → x r c * y r c = 0) : p.pairing x y = 0 :=
  List.sum_eq_zero fun _ hv => by
    obtain ⟨ij, hij, rfl⟩ := List.mem_map.mp hv
    exact h _ _ hij

/-- A pairing adds up all elements, if one of the matrices is zero elsewhere. -/
theorem pairing_eq_sum (hy : p.masked y = y) :
    p.pairing x y = ∑ r ∈ range p.nrows, ∑ c ∈ range p.ncols, x r c * y r c := by
  rw [pairing, sum_elements]
  refine sum_congr rfl fun r _ => sum_congr rfl fun c _ => ?_
  by_cases h : (r, c) ∈ p.positions
  · rw [masked_of_mem h]
  · rw [masked_of_not_mem h, ← hy, masked_of_not_mem h, mul_zero]

theorem pairing_comm : p.pairing x y = p.pairing y x := by
  simp only [pairing, mul_comm]

theorem masked_masked : p.masked (p.masked x) = p.masked x := by
  funext r c
  by_cases h : (r, c) ∈ p.positions
  · rw [masked_of_mem h]
  · rw [masked_of_not_mem h, masked_of_not_mem h]

theorem pairing_masked_left : p.pairing (p.masked x) y = p.pairing x y :=
  pairing_congr (fun _ _ h => masked_of_mem h) fun _ _ _ => rfl

/-- Elements that are projected to a pattern, paired with a matrix on it, are paired where they were. -/
theorem pairing_masked (hshape : q.shape = p.shape) (hy : p.masked y = y) :
    p.pairing (q.masked x) y = q.pairing x y := by
  rw [pairing_eq_sum hy, ← pairing_masked_left, pairing_comm, pairing_eq_sum masked_masked,
    show q.nrows = p.nrows from congrArg Prod.fst hshape,
    show q.ncols = p.ncols from congrArg Prod.snd hshape]
  simp only [mul_comm]

/-- Weights of a single element that is repeated are added up. -/
theorem pairing_spread_scalar (hshape : scalar.shape ≠ p.shape) :
    p.pairing x (scalar.spread p y) = scalar.pairing
      (fun _ _ => ∑ r ∈ range p.nrows, ∑ c ∈ range p.ncols, p.masked x r c) y := by
  have hsingle : scalar.positions = [(0, 0)] := by decide
  rw [pairing, spread, if_neg hshape, masked_of_mem (hsingle ▸ List.mem_singleton_self _), elements,
    List.sum_map_mul_right, ← elements, sum_elements, pairing, elements, hsingle, List.map_singleton,
    List.sum_singleton]

/-- The weights that a product of matrices has for another matrix. -/
theorem pairing_product (x y t : Nat → Nat → V) (p q : Pattern) :
    (p.product q).pairing (fun i j => ∑ l ∈ range p.ncols, p.masked x i l * q.masked y l j) t
      = ∑ i ∈ range p.nrows, ∑ j ∈ range q.ncols, ∑ l ∈ range p.ncols,
          p.masked x i l * q.masked y l j * t i j := by
  have hcolumns : (p.product q).ncols = q.ncols := List.length_map _
  rw [pairing, sum_elements, hcolumns]
  refine sum_congr rfl fun i _ => sum_congr rfl fun j _ => ?_
  by_cases h : (i, j) ∈ (p.product q).positions
  · rw [masked_of_mem h, sum_mul]
  · rw [masked_of_not_mem h]
    refine (sum_eq_zero fun l _ => ?_).symm
    by_cases hl : (i, l) ∈ p.positions
    · rw [masked_of_not_mem (p := q) fun hlj => h (mem_positions_product.mpr ⟨l, hl, hlj⟩), mul_zero,
        zero_mul]
    · rw [masked_of_not_mem hl, zero_mul, zero_mul]

theorem masked_transpose (r c : Nat) :
    p.transpose.masked (fun r c => x c r) r c = p.masked x c r := by
  by_cases h : (c, r) ∈ p.positions
  · rw [masked_of_mem h, masked_of_mem (mem_positions_transpose.mpr h)]
  · rw [masked_of_not_mem h, masked_of_not_mem fun h' => h (mem_positions_transpose.mp h')]

theorem placed_of_getElem? {k : Nat} {ij : Nat × Nat} (hk : p.positions[k]? = some ij)
    (values : List V) : p.placed values ij.1 ij.2 = values.getD k 0 := by
  rw [placed, find?_eq_some_iff.mpr hk]
  rfl

/-- The sums on `q` of the elements on `p` that a map sends there. -/
def sentTo (p q : Pattern) (map : ScatterMap) (x : Nat → Nat → V) : Nat → Nat → V :=
  q.placed ((List.range q.nnz).map fun r => ((map.termsAt r).map fun l => (p.elements x).getD l 0).sum)

/-- The elements on `p` from where a map takes them for `q`. -/
def takenFrom (p q : Pattern) (map : ScatterMap) (x : Nat → Nat → V) : Nat → Nat → V :=
  q.placed (map.map fun target => target.elim 0 fun k => (p.elements x).getD k 0)

theorem sentTo_of_getElem? {map : ScatterMap} {r : Nat} {ij : Nat × Nat}
    (hr : q.positions[r]? = some ij) : p.sentTo q map x ij.1 ij.2
      = ((map.termsAt r).map fun l => (p.elements x).getD l 0).sum := by
  have hlt : r < q.nnz := (List.getElem?_eq_some_iff.mp hr).1
  rw [sentTo, placed_of_getElem? hr, List.getD_eq_getElem?_getD, List.getElem?_map,
    List.getElem?_range hlt]
  rfl

/-- Sums that were sent somewhere, paired with a matrix there. -/
theorem pairing_sentTo {map : ScatterMap} (hlength : map.length = p.nnz)
    (htargets : ∀ k, some k ∈ map → k < q.nnz) :
    q.pairing (p.sentTo q map x) y = ∑ l ∈ range p.nnz, (p.elements x).getD l 0
      * (map.getD l none).elim 0 fun k => (q.elements y).getD k 0 := by
  rw [pairing_eq_sum_range, ← hlength, ← map.sum_termsAt_mul htargets]
  refine sum_congr rfl fun r hr => ?_
  rw [sentTo, elements_placed (by simp), getD_of_getElem?]
  rw [List.getElem?_map, List.getElem?_range (mem_range.mp hr)]
  rfl

/-- Sums in place, paired with weights, are the summands paired with the weights taken from there. -/
theorem pairing_takenFrom {map : ScatterMap} (hlength : map.length = q.nnz)
    (htargets : ∀ k, some k ∈ map → k < p.nnz) :
    q.pairing (p.takenFrom q map x) y = ∑ r ∈ range p.nnz, (p.elements x).getD r 0
      * ((map.termsAt r).map fun l => (q.elements y).getD l 0).sum := by
  rw [pairing_eq_sum_range, takenFrom, elements_placed (by simpa using hlength)]
  simp only [mul_comm ((p.elements x).getD _ 0)]
  rw [map.sum_termsAt_mul htargets, hlength]
  refine sum_congr rfl fun l hl => ?_
  have hlt : l < map.length := hlength.symm ▸ mem_range.mp hl
  have hget := List.getElem?_eq_getElem hlt
  have htaken : (map.map fun target => target.elim 0 fun k => (p.elements x).getD k 0)[l]?
      = some (map[l].elim 0 fun k => (p.elements x).getD k 0) := by
    rw [List.getElem?_map, hget]
    rfl
  rw [mul_comm, getD_of_getElem? hget, getD_of_getElem? htaken]

end Pattern

/-! ### Nodes -/

namespace MatrixGraph

variable {g : MatrixGraph} {I : Interpretation V} {given : MatrixId → Option (List V)}
  {dx : MatrixId → Nat → V} {a e x y : MatrixId} {p q pa pb : Pattern}

theorem pairing_unary (hg : g.Sound I given) {op : UnaryOp} (hn : g.node? e = some (.unary op x))
    (hp : g.pattern? e = some p) (hx : g.pattern? x = some p) (z : Nat → Nat → V) :
    p.pairing z (g.tangentOf I given dx e)
      = p.pairing (fun r c => g.unaryPartialOf I given op x e r c * z r c)
        (g.tangentOf I given dx x) := by
  rw [← Pattern.pairing_mul_right]
  exact Pattern.pairing_congr (fun _ _ _ => rfl) fun r c h => tangentOf_unary hg hn hp hx h

theorem pairing_binary (hg : g.Sound I given) {op : BinaryOp}
    (hn : g.node? e = some (.binary op x y)) (hp : g.pattern? e = some p)
    (hx : g.pattern? x = some pa) (hy : g.pattern? y = some pb) (hfx : g.Fits p x) (hfy : g.Fits p y)
    (z : Nat → Nat → V) :
    p.pairing z (g.tangentOf I given dx e)
      = p.pairing (fun r c => g.binaryPartialOf I given op .left p x y e r c * z r c)
          (pa.spread p (g.tangentOf I given dx x))
        + p.pairing (fun r c => g.binaryPartialOf I given op .right p x y e r c * z r c)
          (pb.spread p (g.tangentOf I given dx y)) := by
  rw [← Pattern.pairing_mul_right, ← Pattern.pairing_mul_right, ← Pattern.pairing_add_right]
  exact Pattern.pairing_congr (fun _ _ _ => rfl) fun r c h =>
    tangentOf_binary_partial hg hn hp hx hy hfx hfy h

theorem pairing_product (hg : g.Sound I given) (hn : g.node? e = some (.product x y))
    (hp : g.pattern? e = some (pa.product pb)) (hx : g.pattern? x = some pa)
    (hy : g.pattern? y = some pb) (hinner : pa.ncols = pb.nrows) (z : Nat → Nat → V) :
    (pa.product pb).pairing z (g.tangentOf I given dx e)
      = ((pa.product pb).product pb.transpose).pairing
          (fun i j => ∑ l ∈ range (pa.product pb).ncols, (pa.product pb).masked z i l
            * pb.transpose.masked (fun r c => g.elementOf I.algebra given y c r) l j)
          (g.tangentOf I given dx x)
        + (pa.transpose.product (pa.product pb)).pairing
          (fun i j => ∑ l ∈ range pa.transpose.ncols,
            pa.transpose.masked (fun r c => g.elementOf I.algebra given x c r) i l
              * (pa.product pb).masked z l j) (g.tangentOf I given dx y) := by
  have hcolumns : (pa.product pb).ncols = pb.ncols := List.length_map _
  rw [Pattern.pairing_product, Pattern.pairing_product, ← Pattern.pairing_masked_left,
    Pattern.pairing_congr (fun _ _ _ => rfl) fun r c h => tangentOf_product hg hn hp hx hy h,
    Pattern.pairing_comm, Pattern.pairing_eq_sum Pattern.masked_masked]
  simp only [Pattern.masked_transpose, masked_elementOf hx, masked_elementOf hy, hcolumns,
    Pattern.ncols_transpose, Pattern.nrows_transpose, ← hinner, add_mul, sum_add_distrib, sum_mul]
  refine congrArg₂ (· + ·) (sum_congr rfl fun r _ => ?_) ?_
  · rw [sum_comm]
    refine sum_congr rfl fun l _ => sum_congr rfl fun c _ => ?_
    ring
  · rw [sum_comm, sum_congr rfl fun c _ => sum_comm, sum_comm]
    refine sum_congr rfl fun l _ => sum_congr rfl fun c _ => sum_congr rfl fun r _ => ?_
    ring

theorem pairing_scatter (hg : g.Sound I given) {map : ScatterMap}
    (hn : g.node? e = some (.scatter a map p)) (hp : g.pattern? e = some p)
    (ha : g.pattern? a = some q) (hlength : map.length = q.nnz)
    (htargets : ∀ k, some k ∈ map → k < p.nnz) (z : Nat → Nat → V) :
    p.pairing z (g.tangentOf I given dx e)
      = q.pairing (p.takenFrom q map z) (g.tangentOf I given dx a) := by
  rw [Pattern.pairing_takenFrom hlength htargets, Pattern.pairing_eq_sum_range]
  refine sum_congr rfl fun r hr => ?_
  obtain ⟨ij, hr⟩ : ∃ ij, p.positions[r]? = some ij :=
    ⟨_, List.getElem?_eq_getElem (mem_range.mp hr)⟩
  rw [← tangentOf_scatter hg _ hn hp ha hlength hr, List.getD_eq_getElem?_getD,
    Pattern.getElem?_elements, hr, List.getD_eq_getElem?_getD, Pattern.getElem?_elements, hr]
  rfl

/-- Of the arguments of a gather, an entry of the map leads to one at most. -/
theorem sum_sourceOf (arguments : List MatrixId) (w : MatrixId → Nat → Nat → V)
    (entry : Option (Nat × Nat)) :
    ∑ i ∈ range arguments.length, (arguments[i]?.elim 0 fun a =>
      (entry.bind fun (t : Nat × Nat) => if t.1 = i then some t.2 else none).elim 0
        fun k => ((MatrixTape.patternIn g a).elements (w a)).getD k 0)
      = g.sourceOf arguments w entry := by
  cases entry with
  | none =>
    refine sum_eq_zero fun i _ => ?_
    cases arguments[i]? <;> rfl
  | some t =>
    obtain ⟨i, k⟩ := t
    rw [sum_eq_single i]
    · rw [sourceOf]
      cases arguments[i]? with
      | none => rfl
      | some a =>
        simp only [Option.elim_some, Option.bind_some, if_true, List.getD_eq_getElem?_getD,
          Pattern.getElem?_elements]
        cases (MatrixTape.patternIn g a).positions[k]? <;> rfl
    · intro j _ hne
      cases arguments[j]? with
      | none => rfl
      | some a => simp [Ne.symm hne]
    · intro hi
      rw [List.getElem?_eq_none (by simpa using hi)]
      rfl

theorem pairing_gather (hg : g.Sound I given) {arguments : List MatrixId} {map : GatherMap}
    (hn : g.node? e = some (.gather arguments map q)) (hp : g.pattern? e = some p)
    (hmap : g.Gathers arguments map p) (z : Nat → Nat → V) :
    p.pairing z (g.tangentOf I given dx e) = (arguments.zipIdx.map fun ai =>
      (MatrixTape.patternIn g ai.1).pairing
        (p.sentTo (MatrixTape.patternIn g ai.1) (map.targets ai.2) z)
        (g.tangentOf I given dx ai.1)).sum := by
  rw [sum_map_zipIdx, Pattern.pairing_eq_sum_range]
  have hback : ∀ i ∈ range arguments.length, (arguments[i]?.elim 0 fun a =>
      (MatrixTape.patternIn g a).pairing (p.sentTo (MatrixTape.patternIn g a) (map.targets i) z)
        (g.tangentOf I given dx a))
      = ∑ l ∈ range p.nnz, (p.elements z).getD l 0 * (arguments[i]?.elim 0 fun a =>
        ((map.targets i).getD l none).elim 0 fun k =>
          ((MatrixTape.patternIn g a).elements (g.tangentOf I given dx a)).getD k 0) := by
    intro i hi
    have ha := List.getElem?_eq_getElem (mem_range.mp hi)
    have hlength : (map.targets i).length = p.nnz := (List.length_map _).trans hmap.length
    rw [ha, Option.elim_some, Pattern.pairing_sentTo hlength fun k hk => ?_]
    · rfl
    · obtain ⟨s, hs, hlt⟩ := GatherMap.lt_of_mem_targets hmap.reaches ha hk
      rwa [patternIn_eq hs]
  rw [sum_congr rfl hback, sum_comm]
  refine sum_congr rfl fun l hl => ?_
  have hlt : l < map.length := hmap.length ▸ mem_range.mp hl
  have htangent := List.Forall₂.get (tangentOf_gather hg dx hn hp hmap) hlt (mem_range.mp hl)
  have hentry : map[l]? = some (map.get ⟨l, hlt⟩) := List.getElem?_eq_getElem hlt
  have htarget : ∀ i, (map.targets i).getD l none
      = (map.get ⟨l, hlt⟩).bind fun t => if t.1 = i then some t.2 else none := fun i =>
    getD_of_getElem? (by rw [GatherMap.targets, List.getElem?_map, hentry]; rfl) none
  simp only [htarget]
  have hposition : p.positions[l]? = some (p.positions.get ⟨l, mem_range.mp hl⟩) :=
    List.getElem?_eq_getElem (mem_range.mp hl)
  rw [← mul_sum, sum_sourceOf, ← htangent]
  refine congrArg _ (getD_of_getElem? ?_ 0)
  rw [Pattern.getElem?_elements, hposition]
  rfl

end MatrixGraph

end Fluxion
