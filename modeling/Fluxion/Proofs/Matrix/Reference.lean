import Fluxion.Proofs.Matrix.Dense
import Fluxion.Proofs.Matrix.Operations

/-!
# Dense reference

What an operation on matrices is to compute can be said without patterns: a shape, and all elements of
it, as in a textbook. A builder works on stored elements only and chooses a pattern for the result. This
is right if the pattern has the shape of the textbook and nothing is lost: wherever the result does not
store an element, the textbook has a zero.

An expression *represents* a dense matrix if it has the shape of the matrix, and reading it with zeros
for elements that are not stored gives the elements. If the operands of an operation represent matrices,
the result represents what the textbook makes of them. Patterns only enter the textbook where they are
what is asked about: a projection keeps positions, and stored elements can be asked for by number.

## Main definitions

* `MatrixOperation`, `MatrixOperation.build` — what expressions are built by
* `MatrixOperation.reference` — the textbook
* `MatrixGraph.Represents` — expressions read with zeros
* `Algebra.KeepsZeros` — the laws by which elements are left out

## Main results

* `MatrixBuilder.represents_binary` — no pattern of an elementwise operation loses an element
* `MatrixOperation.represents_build` — **results represent what the textbook makes of the operands**
-/

namespace Fluxion

open MatrixBuilder MatrixGraph

variable {V : Type}

/-! ### Operations -/

/-- What a matrix expression is built by, from expressions that there are. -/
inductive MatrixOperation where
  | constant (m : SparseMatrix Binary64)
  | unary (op : UnaryOp) (a : MatrixId)
  | binary (op : BinaryOp) (a b : MatrixId)
  | product (a b : MatrixId)
  | transpose (a : MatrixId)
  | vertcat (parts : List MatrixId)
  | horzcat (parts : List MatrixId)
  | element (a : MatrixId) (r c : Nat)
  | nonzeros (a : MatrixId) (numbers : List Nat)
  | sum (a : MatrixId)
  | project (a : MatrixId) (p : Pattern)
  | densify (a : MatrixId)
  | lift (value guess : MatrixId)

namespace MatrixOperation

/-- The request for the expression. -/
def build : MatrixOperation → MatrixBuilder MatrixId
  | constant m => .constant m
  | unary op a => .unary op a
  | binary op a b => .binary op a b
  | product a b => .product a b
  | transpose a => .transpose a
  | vertcat parts => .vertcat parts
  | horzcat parts => .horzcat parts
  | element a r c => .element a r c
  | nonzeros a numbers => .nonzeros a numbers
  | sum a => .sum a
  | project a p => .project a p
  | densify a => .densify a
  | lift value guess => .lift value guess

/-- The expressions whose values the result depends on. -/
def operands : MatrixOperation → List MatrixId
  | constant _ => []
  | unary _ a | transpose a | element a .. | nonzeros a _ | sum a | project a _ | densify a => [a]
  | binary _ a b | product a b => [a, b]
  | vertcat parts | horzcat parts => parts
  | lift value _ => [value]

end MatrixOperation

/-- **The textbook**: the result from the operands. Their patterns are looked at for the numbers of
stored elements only. -/
def MatrixOperation.reference [CommRing V] (A : Algebra Id V) (pat : MatrixId → Pattern)
    (x : MatrixId → DenseMatrix V) : MatrixOperation → DenseMatrix V
  | constant m => .ofSparse (m.map A.constant)
  | unary op a => (x a).map (A.unary op)
  | binary op a b => (x a).zipWith (A.binary op) (x b)
  | product a b => (x a).mul (x b)
  | transpose a => (x a).transpose
  | vertcat parts => .vertcat (parts.map x)
  | horzcat parts => .horzcat (parts.map x)
  | element a r c => .scalar ((x a).elements r c)
  | nonzeros a numbers => (x a).select (numbers.map fun k => (pat a).positions.getD k (0, 0))
  | sum a => .scalar (x a).total
  | project a p => (x a).masked p
  | densify a => x a
  | lift value _ => x value

/-- Besides the laws of a ring, operations that are said to keep zeros do so. -/
structure Algebra.KeepsZeros [CommRing V] (A : Algebra Id V) : Prop extends A.OnRing where
  sqrt_zero : A.unary .sqrt 0 = 0
  sin_zero : A.unary .sin 0 = 0
  tan_zero : A.unary .tan 0 = 0
  tanh_zero : A.unary .tanh 0 = 0

theorem Algebra.KeepsZeros.unary_zero [CommRing V] {A : Algebra Id V} (hA : A.KeepsZeros)
    {op : UnaryOp} (hop : op.keepsZero = true) : A.unary op 0 = 0 := by
  cases op with
  | neg => rw [hA.neg, neg_zero]
  | sqrt => exact hA.sqrt_zero
  | sin => exact hA.sin_zero
  | tan => exact hA.tan_zero
  | tanh => exact hA.tanh_zero
  | cos | exp | log => contradiction

/-! ### Representation -/

namespace Pattern

variable {p q : Pattern} {x y : Nat → Nat → V} {r c : Nat}

theorem nrows_eq_of_shape (h : q.shape = p.shape) : q.nrows = p.nrows := congrArg Prod.fst h

theorem ncols_eq_of_shape (h : q.shape = p.shape) : q.ncols = p.ncols := congrArg Prod.snd h

variable [CommRing V]

/-- Elements inside the shape that are not stored are zero. -/
def Covers (p : Pattern) (x : Nat → Nat → V) : Prop :=
  ∀ r < p.nrows, ∀ c < p.ncols, (r, c) ∉ p.positions → x r c = 0

theorem covers_dense (nrows ncols : Nat) (x : Nat → Nat → V) : (dense nrows ncols).Covers x :=
  fun _ hr _ hc h => absurd (mem_positions_dense.mpr ⟨hr, by simpa using hc⟩) h

theorem Covers.masked_eq (hx : p.Covers x) (hr : r < p.nrows) (hc : c < p.ncols) :
    p.masked x r c = x r c := by
  rw [masked]
  split
  · rfl
  · rename_i h
    exact (hx r hr c hc h).symm

/-- What an operand of an elementwise operation is spread to is what the textbook repeats. -/
theorem Covers.spread_eq (hx : q.Covers x) (hshape : q.shape = p.shape ∨ q.isScalar = true)
    (hr : r < p.nrows) (hc : c < p.ncols) :
    q.spread p x r c = (DenseMatrix.on q x).repeated r c := by
  rw [spread]
  split
  · rename_i hsame
    rw [DenseMatrix.repeated_eq hsame hr hc]
    exact hx.masked_eq (nrows_eq_of_shape hsame ▸ hr) (ncols_eq_of_shape hsame ▸ hc)
  · rename_i hdiffer
    have hscalar := hshape.resolve_left hdiffer
    rw [DenseMatrix.repeated, if_pos (DenseMatrix.shape_eq_iff.mpr hscalar)]
    rw [isScalar, beq_iff_eq] at hscalar
    have hrows : q.nrows = 1 := congrArg Prod.fst hscalar
    have hcols : q.ncols = 1 := congrArg Prod.snd hscalar
    exact hx.masked_eq (by omega) (by omega)

end Pattern

/-- A matrix stores its elements, read with zeros. -/
theorem SparseMatrix.elements_getD (m : SparseMatrix V) (z : V) :
    m.pattern.elements (fun r c => m.getD r c z) = m.values := by
  refine List.ext_getElem? fun k => ?_
  rw [Pattern.getElem?_elements]
  cases hk : m.pattern.positions[k]? with
  | none =>
    rw [List.getElem?_eq_none (m.length_values ▸ List.getElem?_eq_none_iff.mp hk)]
    rfl
  | some ij =>
    have hlt : k < m.values.length := m.length_values ▸ (List.getElem?_eq_some_iff.mp hk).1
    rw [Option.map_some, SparseMatrix.getD, SparseMatrix.get?,
      Pattern.find?_eq_some_iff.mpr (show m.pattern.positions[k]? = some (ij.1, ij.2) from hk),
      Option.bind_some, List.getElem?_eq_getElem hlt]
    rfl

theorem SparseMatrix.get?_elements (p : Pattern) (x : Nat → Nat → V) (r c : Nat) :
    (SparseMatrix.mk p (p.elements x) Pattern.length_elements).get? r c
      = if (r, c) ∈ p.positions then some (x r c) else none := by
  rw [SparseMatrix.get?]
  cases hk : p.find? r c with
  | none => rw [if_neg (Pattern.find?_eq_none_iff.mp hk), Option.bind_none]
  | some k =>
    have hget := Pattern.find?_eq_some_iff.mp hk
    rw [if_pos (List.mem_of_getElem? hget), Option.bind_some, Pattern.getElem?_elements, hget]
    rfl

theorem SparseMatrix.getD_of_not_mem (m : SparseMatrix V) (z : V) {r c : Nat}
    (h : (r, c) ∉ m.pattern.positions) : m.getD r c z = z := by
  rw [SparseMatrix.getD, SparseMatrix.get?, Pattern.find?_eq_none_iff.mpr h]
  rfl

namespace MatrixGraph

variable [CommRing V] {g h : MatrixGraph} {A : Algebra Id V} {given : MatrixId → Option (List V)}
  {e : MatrixId} {x : DenseMatrix V}

/-- The expression has the shape of the matrix, and reading it with zeros for what is not stored gives
the matrix. -/
def Represents (g : MatrixGraph) (A : Algebra Id V) (given : MatrixId → Option (List V))
    (e : MatrixId) (x : DenseMatrix V) : Prop :=
  ∃ p, g.Stores A given e p x.elements ∧ p.shape = x.shape ∧ p.Covers x.elements

theorem Represents.within (he : g.Represents A given e x) (hgh : g.Within h) :
    h.Represents A given e x := by
  obtain ⟨p, hstores, hshape, hcovers⟩ := he
  exact ⟨p, hstores.within hgh, hshape, hcovers⟩

/-- A matrix that is represented has the shape of the pattern, and is stored on it. -/
theorem Represents.eq_on (he : g.Represents A given e x) :
    x = .on (MatrixTape.patternIn g e) x.elements ∧
      g.Stores A given e (MatrixTape.patternIn g e) x.elements ∧
      (MatrixTape.patternIn g e).Covers x.elements := by
  obtain ⟨nrows, ncols, y⟩ := x
  obtain ⟨p, hstores, hshape, hcovers⟩ := he
  obtain ⟨rfl, rfl⟩ := Prod.mk.injEq .. ▸ hshape
  rw [patternIn_eq hstores.pattern]
  exact ⟨rfl, hstores, hcovers⟩

/-- The matrix as one of the shape of a pattern. -/
theorem Represents.exists_on (he : g.Represents A given e x) : ∃ p y, x = .on p y ∧
    MatrixTape.patternIn g e = p ∧ g.Stores A given e p y ∧ p.Covers y :=
  ⟨_, x.elements, he.eq_on.1, rfl, he.eq_on.2.1, he.eq_on.2.2⟩

theorem Stores.represents {p : Pattern} {y : Nat → Nat → V} (he : g.Stores A given e p y)
    (hshape : p.shape = x.shape)
    (hyx : ∀ r < p.nrows, ∀ c < p.ncols, (r, c) ∈ p.positions → y r c = x.elements r c)
    (hx : p.Covers x.elements) : g.Represents A given e x :=
  ⟨p, he.congr fun r c h => hyx r (Pattern.row_lt_of_mem_positions h) c
    (Pattern.column_lt_of_mem_positions h) h, hshape, hx⟩

end MatrixGraph

/-! ### Results and the textbook -/

section Elementwise

variable [CommRing V] {A : Algebra Id V} {op : BinaryOp} {pa pb p q : Pattern}
  {x y : Nat → Nat → V}

theorem Algebra.OnRing.binary_zero_left (hA : A.OnRing) (hop : op.zeroLeft = true) (v : V) :
    A.binary op 0 v = 0 := by
  cases op with
  | mul => rw [hA.mul, zero_mul]
  | div => exact hA.zero_div v
  | add | sub | pow => contradiction

theorem Algebra.OnRing.binary_zero_right (hA : A.OnRing) (hop : op.zeroRight = true) (v : V) :
    A.binary op v 0 = 0 := by
  cases op with
  | mul => rw [hA.mul, mul_zero]
  | add | sub | div | pow => contradiction

theorem Algebra.OnRing.binary_zero_both (hA : A.OnRing) (hop : op.zeroBoth = true) :
    A.binary op 0 0 = 0 := by
  cases op with
  | add => rw [hA.add, add_zero]
  | sub => rw [hA.sub, sub_zero]
  | mul => rw [hA.mul, mul_zero]
  | div | pow => contradiction

theorem Pattern.Covers.repeated_eq_zero (hx : q.Covers x) (hshape : q.shape = p.shape) {r c : Nat}
    (hr : r < p.nrows) (hc : c < p.ncols) (h : (r, c) ∉ q.positions) :
    (DenseMatrix.on q x).repeated r c = 0 := by
  rw [DenseMatrix.repeated_eq hshape hr hc]
  exact hx r (nrows_eq_of_shape hshape ▸ hr) c (ncols_eq_of_shape hshape ▸ hc) h

theorem Pattern.covers_denseOf {nrows ncols : Nat} (hp : denseOf nrows ncols = .ok p)
    (x : Nat → Nat → V) : p.Covers x := by
  rw [denseOf] at hp
  split at hp
  · rw [← Except.ok.inj hp]
    exact covers_dense nrows ncols x
  · contradiction

/-- **The pattern of an elementwise operation** has all elements that the textbook does not make
zero. -/
theorem covers_elementwise (hA : A.OnRing) (hp : elementwisePattern op pa pb = .ok p)
    (hx : pa.Covers x) (hy : pb.Covers y) :
    p.Covers ((DenseMatrix.on pa x).zipWith (A.binary op) (.on pb y)).elements := by
  have hpa := elementwisePattern_left hp
  have hpb := elementwisePattern_right hp
  rw [elementwisePattern] at hp
  dsimp only at hp
  split at hp
  · rename_i hshape
    have hpa := hpa.mpr (.inl hshape)
    have hpb := hpb.mpr (.inl hshape.symm)
    split at hp
    · exact Pattern.covers_denseOf hp _
    · rename_i hboth
      intro r hr c hc hrc
      rw [DenseMatrix.elements_zipWith]
      split at hp
      · rename_i hsides
        obtain ⟨hop, hop'⟩ : op.zeroLeft = true ∧ op.zeroRight = true := by simpa using hsides
        rw [← Except.ok.inj hp, Pattern.mem_positions_intersection, not_and_or] at hrc
        rcases hrc with h | h
        · rw [hx.repeated_eq_zero hpa hr hc h]
          exact hA.binary_zero_left hop _
        · rw [hy.repeated_eq_zero hpb hr hc h]
          exact hA.binary_zero_right hop' _
      · rw [← Except.ok.inj hp, Pattern.mem_positions_union, not_or] at hrc
        rw [hx.repeated_eq_zero hpa hr hc hrc.1, hy.repeated_eq_zero hpb hr hc hrc.2]
        exact hA.binary_zero_both (by simpa using hboth)
  · split at hp
    · split at hp
      · rename_i hop
        obtain rfl := Except.ok.inj hp
        intro r hr c hc hrc
        rw [DenseMatrix.elements_zipWith]
        rw [hy.repeated_eq_zero rfl hr hc hrc]
        exact hA.binary_zero_right hop _
      · exact Pattern.covers_denseOf hp _
    · split at hp
      · split at hp
        · rename_i hop
          obtain rfl := Except.ok.inj hp
          intro r hr c hc hrc
          rw [DenseMatrix.elements_zipWith]
          rw [hx.repeated_eq_zero rfl hr hc hrc]
          exact hA.binary_zero_left hop _
        · exact Pattern.covers_denseOf hp _
      · contradiction

end Elementwise

namespace MatrixBuilder

variable [CommRing V] {g : MatrixGraph} {A : Algebra Id V} {given : MatrixId → Option (List V)}
  {a b : MatrixId} {x y : DenseMatrix V}

theorem represents_constant (m : SparseMatrix Binary64) :
    Keeps (constant m) g fun e h => h.Represents A given e (.ofSparse (m.map A.constant)) := by
  refine (stores_constant m fun h _ _ => ?_).imp fun e h _ he =>
    ⟨_, he, rfl, fun r _ c _ hrc => SparseMatrix.getD_of_not_mem _ _ hrc⟩
  exact (SparseMatrix.elements_getD (m.map A.constant) 0).symm

theorem represents_unary (hA : A.KeepsZeros) (op : UnaryOp) (ha : g.Represents A given a x) :
    Keeps (unary op a) g fun e h => h.Represents A given e (x.map (A.unary op)) := by
  obtain ⟨q, x, rfl, -, hstores, hcovers⟩ := ha.exists_on
  refine (stores_unary hA.toOnRing op hstores).imp fun e h _ he => he.represents ?_ ?_ ?_
  · split
    · rfl
    · rw [Pattern.shape, Pattern.nrows_dense, Pattern.ncols_dense]
      rfl
  · intro r hr c hc _
    have hr : r < q.nrows := by split at hr <;> exact hr
    have hc : c < q.ncols := by
      split at hc
      · exact hc
      · simpa using hc
    rw [hcovers.masked_eq hr hc]
    rfl
  · split
    · rename_i hop
      intro r hr c hc hrc
      show A.unary op (x r c) = 0
      rw [hcovers r hr c hc hrc]
      exact hA.unary_zero hop
    · exact Pattern.covers_dense _ _ _

/-- Elementwise operations lose no element. -/
theorem represents_binary (hA : A.OnRing) (op : BinaryOp) (ha : g.Represents A given a x)
    (hb : g.Represents A given b y) :
    Keeps (binary op a b) g fun e h => h.Represents A given e (x.zipWith (A.binary op) y) := by
  obtain ⟨pa, x, rfl, -, ha, hx⟩ := ha.exists_on
  obtain ⟨pb, y, rfl, -, hb, hy⟩ := hb.exists_on
  refine (stores_binary hA op ha hb).imp fun e h _ he => ?_
  obtain ⟨p, hp, he⟩ := he
  refine he.represents ?_ (fun r hr c hc _ => ?_) (covers_elementwise hA hp hx hy)
  · simp only [(elementwisePattern_shape hp).1, ← DenseMatrix.shape_eq_iff (x := x)]
    rfl
  · have hleft : pa.shape = p.shape ∨ pa.isScalar = true := by
      rw [elementwisePattern_left hp]
      cases pa.isScalar <;> simp
    have hright : pb.shape = p.shape ∨ pb.isScalar = true := by
      rw [elementwisePattern_right hp]
      cases pb.isScalar <;> simp
    rw [hx.spread_eq hleft hr hc, hy.spread_eq hright hr hc]
    rfl

theorem represents_product (hA : A.OnRing) (ha : g.Represents A given a x)
    (hb : g.Represents A given b y) :
    Keeps (product a b) g fun e h => h.Represents A given e (x.mul y) := by
  obtain ⟨pa, x, rfl, -, ha, hx⟩ := ha.exists_on
  obtain ⟨pb, y, rfl, -, hb, hy⟩ := hb.exists_on
  refine (stores_product hA ha hb).imp fun e h _ he => ?_
  obtain ⟨hp, he⟩ := he
  have hinner : pa.ncols = pb.nrows := by
    rw [Pattern.productOf] at hp
    by_contra hne
    rw [if_pos hne] at hp
    contradiction
  have hcols : (pa.product pb).ncols = pb.ncols := by simp [Pattern.product, Pattern.ncols]
  have hsum : ∀ r < pa.nrows, ∀ c < pb.ncols,
      ∑ l ∈ Finset.range pa.ncols, pa.masked x r l * pb.masked y l c
        = ∑ l ∈ Finset.range pa.ncols, x r l * y l c := by
    intro r hr c hc
    refine Finset.sum_congr rfl fun l hl => ?_
    have hl := Finset.mem_range.mp hl
    rw [hx.masked_eq hr hl, hy.masked_eq (hinner ▸ hl) hc]
  refine he.represents (Prod.ext rfl hcols) (fun r hr c hc _ => hsum r hr c (hcols ▸ hc))
    fun r hr c hc hrc => ?_
  refine (hsum r hr c (hcols ▸ hc)).symm.trans (Finset.sum_eq_zero fun l _ => ?_)
  -- an inner index that both factors store would store an element of the result
  by_cases hl : (r, l) ∈ pa.positions
  · have hl' : (l, c) ∉ pb.positions := fun hl' =>
      hrc (Pattern.mem_positions_product.mpr ⟨l, hl, hl'⟩)
    rw [Pattern.masked_of_not_mem hl', mul_zero]
  · rw [Pattern.masked_of_not_mem hl, zero_mul]

theorem represents_transpose (hA : A.OnRing) (ha : g.Represents A given a x) :
    Keeps (transpose a) g fun e h => h.Represents A given e x.transpose := by
  obtain ⟨q, x, rfl, -, hstores, hcovers⟩ := ha.exists_on
  refine (stores_transpose hA hstores).imp fun e h _ he =>
    ⟨_, he, Prod.ext rfl q.ncols_transpose, fun r hr c hc hrc => ?_⟩
  rw [Pattern.mem_positions_transpose] at hrc
  exact hcovers c (q.ncols_transpose ▸ hc) r hr hrc

/-! ### Blocks -/

section Blocks

variable {parts : List MatrixId} {pat : MatrixId → Pattern} {z : MatrixId → Nat → Nat → V}

theorem map_eq_on {x : MatrixId → DenseMatrix V}
    (hparts : ∀ a ∈ parts, g.Represents A given a (x a)) :
    parts.map x = parts.map fun a => .on (MatrixTape.patternIn g a) (x a).elements :=
  List.map_congr_left fun a ha => (hparts a ha).eq_on.1

/-- Blocks on top of each other store all elements that the blocks store. -/
theorem along_stackColumn_eq_zero {j : Nat}
    (hparts : ∀ a ∈ parts, ∀ i < (pat a).nrows, (i, j) ∉ (pat a).positions → z a i j = 0)
    {offset r : Nat} (hoffset : offset ≤ r)
    (hr : r ∉ Pattern.stackColumn j offset (parts.map pat)) :
    along (parts.map fun a => ((pat a).nrows, fun i => z a i j)) (r - offset) = 0 := by
  induction parts generalizing offset with
  | nil => rfl
  | cons a rest ih =>
    rw [List.map_cons, Pattern.stackColumn, List.mem_append, not_or] at hr
    rw [List.map_cons, along]
    split
    · rename_i hlt
      refine hparts a (by simp) _ hlt fun hmem => hr.1 (List.mem_map.mpr ⟨r - offset, ?_, ?_⟩)
      · exact Pattern.mem_positions.mp hmem
      · omega
    · rw [Nat.sub_sub]
      exact ih (fun b hb => hparts b (List.mem_cons_of_mem a hb)) (by omega) hr.2

theorem represents_vertcat (hA : A.OnRing) {x : MatrixId → DenseMatrix V}
    (hparts : ∀ a ∈ parts, g.Represents A given a (x a)) :
    Keeps (vertcat parts) g fun e h => h.Represents A given e (.vertcat (parts.map x)) := by
  have hx := map_eq_on hparts
  refine (stores_vertcat hA fun a ha => (hparts a ha).eq_on.2.1).imp fun e h _ he => ?_
  obtain ⟨p, hp, hcols, he⟩ := he
  have hstack := eq_stack_of_vertcat hp
  refine he.represents ?_ (fun r _ c _ _ => ?_) fun r hr c hc hrc => ?_
  · rw [hstack, Pattern.shape_stack, hx, DenseMatrix.shape_vertcat]
  · rw [hx, DenseMatrix.elements_vertcat]
  · have hcolumn : r ∉ Pattern.stackColumn c 0 (parts.map (MatrixTape.patternIn g)) := by
      intro hmem
      refine hrc (Pattern.mem_positions.mpr ?_)
      rw [hstack] at hc ⊢
      rw [Pattern.column, Pattern.stack, List.getD_eq_getElem?_getD, List.getElem?_map,
        List.getElem?_range (by simpa [Pattern.stack, Pattern.ncols] using hc)]
      exact hmem
    rw [hx, DenseMatrix.elements_vertcat]
    exact along_stackColumn_eq_zero (fun a ha i hi hmem =>
      (hparts a ha).eq_on.2.2 i hi c (hcols a ha ▸ hc) hmem) (Nat.zero_le r) hcolumn

/-- Blocks side by side store all elements that the blocks store. -/
theorem along_besideColumns_eq_zero {r : Nat}
    (hparts : ∀ a ∈ parts, ∀ j < (pat a).ncols, (r, j) ∉ (pat a).positions → z a r j = 0) {c : Nat}
    (hc : r ∉ ((parts.map pat).flatMap Pattern.columns).getD c []) :
    along (parts.map fun a => ((pat a).ncols, fun j => z a r j)) c = 0 := by
  induction parts generalizing c with
  | nil => rfl
  | cons a rest ih =>
    rw [List.map_cons, List.flatMap_cons] at hc
    rw [List.map_cons, along]
    split
    · rename_i hlt
      rw [List.getD_append _ _ _ _ hlt] at hc
      exact hparts a (by simp) c hlt fun hmem => hc (Pattern.mem_positions.mp hmem)
    · rename_i hle
      rw [List.getD_append_right _ _ _ _ (Nat.le_of_not_lt hle)] at hc
      exact ih (fun b hb => hparts b (List.mem_cons_of_mem a hb)) hc

theorem represents_horzcat (hA : A.OnRing) {x : MatrixId → DenseMatrix V}
    (hparts : ∀ a ∈ parts, g.Represents A given a (x a)) :
    Keeps (horzcat parts) g fun e h => h.Represents A given e (.horzcat (parts.map x)) := by
  have hx := map_eq_on hparts
  refine (stores_horzcat hA fun a ha => (hparts a ha).eq_on.2.1).imp fun e h _ he => ?_
  obtain ⟨p, hp, he⟩ := he
  obtain ⟨hshape, hcolumns, hrows⟩ := beside_of_horzcat hp
  refine he.represents ?_ (fun r _ c _ _ => ?_) fun r hr c _ hrc => ?_
  · rw [hshape, hx, DenseMatrix.shape_horzcat]
  · rw [hx, DenseMatrix.elements_horzcat]
  · rw [hx, DenseMatrix.elements_horzcat]
    refine along_besideColumns_eq_zero (fun a ha j hj hmem => ?_) fun hmem =>
      hrc (Pattern.mem_positions.mpr ?_)
    · exact (hparts a ha).eq_on.2.2 r ((hrows _ (List.mem_map_of_mem ha)) ▸ hr) j hj hmem
    · rwa [Pattern.column, hcolumns]

end Blocks

/-! ### Parts and sums -/

theorem represents_element (hA : A.OnRing) (ha : g.Represents A given a x) (r c : Nat) :
    Keeps (element a r c) g fun e h => h.Represents A given e (.scalar (x.elements r c)) := by
  obtain ⟨q, x, rfl, -, hstores, hcovers⟩ := ha.exists_on
  refine (stores_element hA hstores r c).imp fun e h _ he => ?_
  obtain ⟨hr, hc, he⟩ := he
  exact he.represents rfl (fun _ _ _ _ _ => hcovers.masked_eq hr hc) (Pattern.covers_dense 1 1 _)

theorem represents_nonzeros (hA : A.OnRing) (ha : g.Represents A given a x) (numbers : List Nat) :
    Keeps (nonzeros a numbers) g fun e h => h.Represents A given e
      (x.select (numbers.map fun k => (MatrixTape.patternIn g a).positions.getD k (0, 0))) := by
  obtain ⟨q, x, rfl, rfl, hstores, -⟩ := ha.exists_on
  refine (stores_nonzeros hA hstores numbers).imp fun e h _ he => ?_
  obtain ⟨hnumbers, he⟩ := he
  refine he.represents ?_ (fun r hr c _ _ => ?_) (Pattern.covers_dense numbers.length 1 _)
  · rw [DenseMatrix.select, List.length_map]
    exact Prod.ext rfl (Pattern.ncols_dense numbers.length 1)
  · have hr : r < numbers.length := hr
    have hk : numbers.getD r 0 < (MatrixTape.patternIn g a).positions.length := by
      rw [List.getD_eq_getElem _ _ hr]
      exact hnumbers _ (List.getElem_mem hr)
    have hplace : (numbers.map fun k => (MatrixTape.patternIn g a).positions.getD k (0, 0)).getD r
        (0, 0) = (MatrixTape.patternIn g a).positions.getD (numbers.getD r 0) (0, 0) := by
      rw [List.getD_eq_getElem _ _ (by rwa [List.length_map]), List.getElem_map,
        List.getD_eq_getElem _ _ hr]
    rw [DenseMatrix.elements_select, hplace, List.getD_eq_getElem?_getD, Pattern.getElem?_elements,
      List.getElem?_eq_getElem hk, List.getD_eq_getElem _ _ hk]
    rfl

theorem represents_sum (hA : A.OnRing) (ha : g.Represents A given a x) :
    Keeps (sum a) g fun e h => h.Represents A given e (.scalar x.total) := by
  obtain ⟨q, x, rfl, -, hstores, hcovers⟩ := ha.exists_on
  refine (stores_sum hA hstores).imp fun e h _ he => he.represents rfl (fun _ _ _ _ _ => ?_)
    (Pattern.covers_dense 1 1 _)
  exact Finset.sum_congr rfl fun i hi => Finset.sum_congr rfl fun j hj =>
    hcovers.masked_eq (Finset.mem_range.mp hi) (Finset.mem_range.mp hj)

theorem represents_project (hA : A.OnRing) (ha : g.Represents A given a x) (p : Pattern) :
    Keeps (project a p) g fun e h => h.Represents A given e (x.masked p) := by
  obtain ⟨q, x, rfl, -, hstores, hcovers⟩ := ha.exists_on
  refine (stores_project hA hstores p).imp fun e h _ he => ?_
  obtain ⟨hshape, he⟩ := he
  refine he.represents hshape.symm (fun r hr c hc hrc => ?_)
    fun r _ c _ hrc => Pattern.masked_of_not_mem hrc
  refine Eq.trans ?_ (Pattern.masked_of_mem hrc).symm
  exact hcovers.masked_eq (Pattern.nrows_eq_of_shape hshape ▸ hr)
    (Pattern.ncols_eq_of_shape hshape ▸ hc)

theorem represents_densify (hA : A.OnRing) (ha : g.Represents A given a x) :
    Keeps (densify a) g fun e h => h.Represents A given e x := by
  obtain ⟨q, x, rfl, -, hstores, hcovers⟩ := ha.exists_on
  refine (stores_densify hA hstores).imp fun e h _ he => he.represents
    (Prod.ext rfl (Pattern.ncols_dense q.nrows q.ncols)) (fun r hr c hc _ => ?_)
    (Pattern.covers_dense _ _ _)
  exact hcovers.masked_eq hr (by simpa using hc)

theorem represents_lift {guess : MatrixId} (ha : g.Represents A given a x) :
    Keeps (lift a guess) g fun e h => h.Represents A given e x := by
  obtain ⟨q, hstores, hshape, hcovers⟩ := ha
  exact (stores_lift hstores).imp fun e h _ he => ⟨q, he, hshape, hcovers⟩

end MatrixBuilder

/-- **Results represent what the textbook makes of the operands**, whatever operation was asked
for. -/
theorem MatrixOperation.represents_build [CommRing V] {g : MatrixGraph} {A : Algebra Id V}
    {given : MatrixId → Option (List V)} (hA : A.KeepsZeros) (op : MatrixOperation)
    {x : MatrixId → DenseMatrix V} (hoperands : ∀ a ∈ op.operands, g.Represents A given a (x a)) :
    Keeps op.build g fun e h =>
      h.Represents A given e (op.reference A (MatrixTape.patternIn g) x) := by
  have hring := hA.toOnRing
  have hone : ∀ {a}, op.operands = [a] → g.Represents A given a (x a) := fun h =>
    hoperands _ (by simp [h])
  have htwo : ∀ {a b}, op.operands = [a, b] →
      g.Represents A given a (x a) ∧ g.Represents A given b (x b) := fun h =>
    ⟨hoperands _ (by simp [h]), hoperands _ (by simp [h])⟩
  cases op with
  | constant m => exact represents_constant m
  | unary op a => exact represents_unary hA op (hone rfl)
  | binary op a b => exact represents_binary hring op (htwo rfl).1 (htwo rfl).2
  | product a b => exact represents_product hring (htwo rfl).1 (htwo rfl).2
  | transpose a => exact represents_transpose hring (hone rfl)
  | vertcat parts => exact represents_vertcat hring hoperands
  | horzcat parts => exact represents_horzcat hring hoperands
  | element a r c => exact represents_element hring (hone rfl) r c
  | nonzeros a numbers => exact represents_nonzeros hring (hone rfl) numbers
  | sum a => exact represents_sum hring (hone rfl)
  | project a p => exact represents_project hring (hone rfl) p
  | densify a => exact represents_densify hring (hone rfl)
  | lift value guess => exact represents_lift (hone rfl)

end Fluxion
