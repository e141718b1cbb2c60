import Fluxion.Proofs.Matrix.Operations

/-!
# Partial derivatives of elementwise operations

A sweep multiplies derivatives by partial derivatives, which it builds with elementwise operations. On
the way patterns may grow: a quotient is dense, say, and a constant is a single element that stands for
all. What matters is that an expression has the right elements on the pattern of the result; then it
*serves* there, and elementwise operations on expressions that serve give expressions that serve.

In the end the product with a derivative on the pattern is on the pattern again.

## Main definitions

* `Pattern.Over` — a pattern has all positions of another one, if it is not that of a single element
* `MatrixGraph.Serves` — an expression has the elements of a matrix on a pattern

## Main results

* `MatrixBuilder.serves_unary`, `MatrixBuilder.serves_binary` — elementwise operations
* `MatrixBuilder.serves_unaryPartial`, `MatrixBuilder.serves_binaryPartial` — **partial derivatives**
* `MatrixBuilder.stores_broadcast_of_serves`, `MatrixBuilder.stores_mul_of_serves` — back on the pattern
-/

namespace Fluxion

variable {V : Type}

/-! ### Patterns of operands and results -/

namespace Pattern

variable {p q pa pb : Pattern} {op : BinaryOp} {r c : Nat}

/-- The pattern has the shape and all positions of another one, or it is that of a single element that
is repeated. -/
structure Over (q p : Pattern) : Prop where
  shape : q.shape = p.shape ∨ q.isScalar = true
  same : q.shape = p.shape → ∀ r c, (r, c) ∈ p.positions → (r, c) ∈ q.positions
  single : q.shape ≠ p.shape → ∀ r c, (r, c) ∈ p.positions → (0, 0) ∈ q.positions

theorem Over.refl (p : Pattern) : p.Over p := ⟨.inl rfl, fun _ _ _ h => h, fun h => absurd rfl h⟩

theorem over_scalar (p : Pattern) : Pattern.scalar.Over p := by
  refine ⟨.inr rfl, fun hshape r c h => ?_, fun _ _ _ _ => mem_positions_dense.mpr ⟨by simp, by simp⟩⟩
  have hrow := row_lt_of_mem_positions h
  have hcolumn := column_lt_of_mem_positions h
  have hrows : 1 = p.nrows := congrArg Prod.fst hshape
  have hcolumns : 1 = p.ncols := congrArg Prod.snd hshape
  exact mem_positions_dense.mpr ⟨by omega, by omega⟩

theorem Over.dense (hq : q.Over p) : (Pattern.dense q.nrows q.ncols).Over p := by
  have hshape : (Pattern.dense q.nrows q.ncols).shape = q.shape := by
    rw [Pattern.shape, Pattern.shape, nrows_dense, ncols_dense]
  refine ⟨?_, fun hsame r c h => ?_, fun hdiffer r c h => ?_⟩
  · rw [isScalar, hshape]
    exact hq.shape
  · have hmem := hq.same (hshape ▸ hsame) r c h
    exact mem_positions_dense.mpr ⟨row_lt_of_mem_positions hmem, column_lt_of_mem_positions hmem⟩
  · have hmem := hq.single (hshape ▸ hdiffer) r c h
    exact mem_positions_dense.mpr ⟨row_lt_of_mem_positions hmem, column_lt_of_mem_positions hmem⟩

/-- A result has the elements that both operands have, those apart that are repeated. -/
theorem mem_positions_elementwise (hq : elementwisePattern op pa pb = .ok q)
    (ha : pa.shape = q.shape → (r, c) ∈ pa.positions)
    (hb : pb.shape = q.shape → (r, c) ∈ pb.positions) : (r, c) ∈ q.positions := by
  have hleft := MatrixBuilder.elementwisePattern_left hq
  have hright := MatrixBuilder.elementwisePattern_right hq
  obtain ⟨-, hfits⟩ := MatrixBuilder.elementwisePattern_shape hq
  have hdense : ∀ {s : Pattern}, denseOf s.nrows s.ncols = .ok q → (r, c) ∈ s.positions →
      (r, c) ∈ q.positions := by
    intro s hs hmem
    rw [denseOf] at hs
    split at hs
    · rw [← Except.ok.inj hs]
      exact mem_positions_dense.mpr ⟨row_lt_of_mem_positions hmem, column_lt_of_mem_positions hmem⟩
    · contradiction
  rw [elementwisePattern] at hq
  dsimp only at hq
  split at hq
  · rename_i hshape
    have ha := ha (hleft.mpr (.inl hshape))
    have hb := hb (hright.mpr (.inl hshape.symm))
    split at hq
    · exact hdense hq ha
    · split at hq
      · rw [← Except.ok.inj hq]
        exact mem_positions_intersection.mpr ⟨ha, hb⟩
      · rw [← Except.ok.inj hq]
        exact (mem_positions_union hshape).mpr (.inl ha)
  · rename_i hshape
    split at hq
    · rename_i hscalar
      have hb := hb (hright.mpr (.inr (by
        by_contra hscalar'
        rw [isScalar, beq_iff_eq] at hscalar
        rw [Bool.not_eq_false, isScalar, beq_iff_eq] at hscalar'
        exact hshape (hscalar.trans hscalar'.symm))))
      split at hq
      · rwa [← Except.ok.inj hq]
      · exact hdense hq hb
    · rename_i hscalar
      have ha := ha (hleft.mpr (.inr (by simpa using hscalar)))
      split at hq
      · split at hq
        · rwa [← Except.ok.inj hq]
        · exact hdense hq ha
      · contradiction

/-- Of two operands of different shapes, one is repeated, and the other has the shape of what both
serve for. -/
theorem Over.shape_elementwise (ha : pa.Over p) (hb : pb.Over p) (hshape : pa.shape ≠ pb.shape)
    (hq : elementwisePattern op pa pb = .ok q) : q.shape = p.shape := by
  rw [(MatrixBuilder.elementwisePattern_shape hq).1]
  split
  · rename_i hscalar
    refine hb.shape.resolve_right fun hscalar' => hshape ?_
    rw [isScalar, beq_iff_eq] at hscalar hscalar'
    exact hscalar.trans hscalar'.symm
  · rename_i hscalar
    exact ha.shape.resolve_right hscalar

/-- Results of operations on patterns over `p` are over `p`. -/
theorem Over.elementwise (ha : pa.Over p) (hb : pb.Over p)
    (hq : elementwisePattern op pa pb = .ok q) : q.Over p := by
  by_cases hshape : pa.shape = pb.shape
  · have hqa : q.shape = pa.shape :=
      ((MatrixBuilder.elementwisePattern_left hq).mpr (.inl hshape)).symm
    refine ⟨?_, fun hsame r c h => ?_, fun hdiffer r c h => ?_⟩
    · rw [isScalar, hqa]
      exact ha.shape
    · exact mem_positions_elementwise hq (fun _ => ha.same (hqa.symm.trans hsame) r c h)
        fun _ => hb.same (hshape.symm.trans (hqa.symm.trans hsame)) r c h
    · exact mem_positions_elementwise hq
        (fun _ => ha.single (fun heq => hdiffer (hqa.trans heq)) r c h)
        fun _ => hb.single (fun heq => hdiffer (hqa.trans (hshape.trans heq))) r c h
  · have hqp := ha.shape_elementwise hb hshape hq
    exact ⟨.inl hqp, fun _ r c h => mem_positions_elementwise hq
      (fun hsame => ha.same (hsame.trans hqp) r c h) fun hsame => hb.same (hsame.trans hqp) r c h,
      fun hdiffer => absurd hqp hdiffer⟩

variable [Zero V] {x y : Nat → Nat → V}

/-- Where all elements are stored that are asked for, spreading leaves none out. -/
theorem Over.spread_eq (hq : q.Over p) (h : (r, c) ∈ p.positions) :
    q.spread p x r c = if q.shape = p.shape then x r c else x 0 0 := by
  rw [spread]
  split
  · rename_i hsame
    exact masked_of_mem (hq.same hsame r c h)
  · rename_i hdiffer
    exact masked_of_mem (hq.single hdiffer r c h)

/-- Spreading operands for the result, and then the result, spreads the operands. -/
theorem Over.spread_elementwise (ha : pa.Over p) (hb : pb.Over p)
    (hq : elementwisePattern op pa pb = .ok q) (f : V → V → V) (h : (r, c) ∈ p.positions) :
    q.spread p (fun r c => f (pa.spread q x r c) (pb.spread q y r c)) r c
      = f (pa.spread p x r c) (pb.spread p y r c) := by
  rw [(ha.elementwise hb hq).spread_eq h]
  by_cases hshape : pa.shape = pb.shape
  · have hqa : q.shape = pa.shape :=
      ((MatrixBuilder.elementwisePattern_left hq).mpr (.inl hshape)).symm
    have hqb : q.shape = pb.shape := hqa.trans hshape
    simp only [spread, ← hqa, ← hqb]
    split <;> rfl
  · have hqp := ha.shape_elementwise hb hshape hq
    rw [if_pos hqp, spread, spread, spread, spread, hqp]

end Pattern

/-! ### Expressions that serve -/

namespace MatrixGraph

variable [CommRing V] {g h : MatrixGraph} {A : Algebra Id V} {given : MatrixId → Option (List V)}
  {a d : MatrixId} {p q : Pattern} {x y : Nat → Nat → V}

/-- On a pattern the expression has the elements of a matrix. It may have more elements, or be a single
one that is repeated. -/
def Serves (g : MatrixGraph) (A : Algebra Id V) (given : MatrixId → Option (List V)) (p : Pattern)
    (d : MatrixId) (y : Nat → Nat → V) : Prop :=
  ∃ q x, g.Stores A given d q x ∧ q.Over p ∧
    ∀ r c, (r, c) ∈ p.positions → q.spread p x r c = y r c

theorem Serves.grow (hd : g.Serves A given p d y) (hgrow : g.Grows h) : h.Serves A given p d y := by
  obtain ⟨q, x, hstores, hover, heq⟩ := hd
  exact ⟨q, x, hstores.grow hgrow, hover, heq⟩

theorem Stores.serves (hd : g.Stores A given d p x) : g.Serves A given p d x := by
  refine ⟨p, x, hd, .refl p, fun r c h => ?_⟩
  rw [(Pattern.Over.refl p).spread_eq h, if_pos rfl]

/-- An operand of an elementwise operation serves for the result. -/
theorem serves_of_fits (hfits : g.Fits p a) (ha : g.Stores A given a q x) :
    g.Serves A given p a (q.spread p x) := by
  refine ⟨q, x, ha, ?_, fun _ _ _ => rfl⟩
  rcases hfits with hp | hscalar
  · rw [Option.some.inj (ha.pattern.symm.trans hp)]
    exact .refl p
  · rw [Option.some.inj (ha.pattern.symm.trans hscalar)]
    exact Pattern.over_scalar p

end MatrixGraph

namespace MatrixBuilder

open MatrixGraph

section Operations

variable [CommRing V] {g : MatrixGraph} {A : Algebra Id V} {given : MatrixId → Option (List V)}
  {a b d s : MatrixId} {p : Pattern} {x y z : Nat → Nat → V}

theorem serves_scalar (v : Binary64) :
    Keeps (scalar v) g fun d h => h.Serves A given p d fun _ _ => A.constant v := by
  have hstores : Keeps (scalar v) g fun d h => h.Stores A given d .scalar fun _ _ => A.constant v :=
    stores_constant (.scalar v) fun h _ _ => rfl
  refine hstores.imp fun d h _ hd => ⟨_, _, hd, Pattern.over_scalar p, fun r c hrc => ?_⟩
  rw [(Pattern.over_scalar p).spread_eq hrc, ite_self]

theorem serves_unary (hA : A.OnRing) (op : UnaryOp) (ha : g.Serves A given p a x) :
    Keeps (unary op a) g fun d h => h.Serves A given p d fun r c => A.unary op (x r c) := by
  obtain ⟨q, w, hstores, hover, heq⟩ := ha
  have hresult : (if op.keepsZero then q else Pattern.dense q.nrows q.ncols).Over p := by
    split
    · exact hover
    · exact hover.dense
  have hshape : (if op.keepsZero then q else Pattern.dense q.nrows q.ncols).shape = q.shape := by
    split
    · rfl
    · rw [Pattern.shape, Pattern.shape, Pattern.nrows_dense, Pattern.ncols_dense]
  refine (stores_unary hA op hstores).imp fun d h _ hd => ⟨_, _, hd, hresult, fun r c hrc => ?_⟩
  show _ = A.unary op (x r c)
  rw [hresult.spread_eq hrc, hshape, ← heq r c hrc, Pattern.spread]
  split <;> rfl

theorem serves_binary (hA : A.OnRing) (op : BinaryOp) (ha : g.Serves A given p a x)
    (hb : g.Serves A given p b y) :
    Keeps (binary op a b) g fun d h =>
      h.Serves A given p d fun r c => A.binary op (x r c) (y r c) := by
  obtain ⟨qa, u, hsa, hoa, hea⟩ := ha
  obtain ⟨qb, w, hsb, hob, heb⟩ := hb
  refine (stores_binary hA op hsa hsb).imp fun d h _ hd => ?_
  obtain ⟨q, hq, hstores⟩ := hd
  refine ⟨q, _, hstores, hoa.elementwise hob hq, fun r c hrc => ?_⟩
  rw [hoa.spread_elementwise hob hq _ hrc, hea r c hrc, heb r c hrc]

/-! ### Back on the pattern -/

theorem stores_broadcast_of_serves (hA : A.OnRing) (hd : g.Serves A given p d y) :
    Keeps (broadcast d p) g fun t h => h.Stores A given t p y := by
  obtain ⟨q, x, hstores, hover, heq⟩ := hd
  exact (stores_broadcast hA hstores p).imp fun t h _ ht => ht.congr heq

theorem positions_elementwise_mul {q r : Pattern} (hq : q.Over p)
    (hr : elementwisePattern .mul q p = .ok r) : r.shape = p.shape ∧ r.positions = p.positions := by
  have hshape : r.shape = p.shape := by
    rcases hq.shape with hsame | hscalar
    · exact ((elementwisePattern_right hr).mpr (.inl hsame.symm)).symm
    · rw [(elementwisePattern_shape hr).1, if_pos hscalar]
  refine ⟨hshape, Pattern.positions_eq p.pairwise_positions fun i j => ⟨fun h => ?_, fun h => ?_⟩⟩
  · rw [elementwisePattern] at hr
    dsimp only at hr
    split at hr
    · rw [if_neg (by decide), if_pos (by decide)] at hr
      rw [← Except.ok.inj hr] at h
      exact (Pattern.mem_positions_intersection.mp h).2
    · rename_i hdiffer
      rw [if_pos (hq.shape.resolve_left hdiffer), if_pos (by decide)] at hr
      rwa [← Except.ok.inj hr] at h
  · exact Pattern.mem_positions_elementwise hr
      (fun hsame => hq.same (hsame.trans hshape) i j h) fun _ => h

/-- The product of an expression that serves on a pattern with one that is on it stores elements there,
and no others. -/
theorem stores_mul_of_serves (hA : A.OnRing) (hd : g.Serves A given p d y)
    (hs : g.Stores A given s p z) :
    Keeps (binary .mul d s) g fun t h => ∃ q, q.shape = p.shape ∧ q.positions = p.positions ∧
      h.Stores A given t q fun r c => y r c * z r c := by
  obtain ⟨q, x, hstores, hover, heq⟩ := hd
  refine (stores_binary hA .mul hstores hs).imp fun t h _ ht => ?_
  obtain ⟨r, hr, ht⟩ := ht
  obtain ⟨hshape, hpositions⟩ := positions_elementwise_mul hover hr
  refine ⟨r, hshape, hpositions, ht.congr fun i j hij => ?_⟩
  rw [hpositions] at hij
  rw [hA.mul, ← heq i j hij, Pattern.spread, Pattern.spread, Pattern.spread, hshape, if_pos rfl,
    Pattern.masked_of_mem hij]

end Operations

/-! ### Partial derivatives -/

section Partials

variable [CommRing V] {g : MatrixGraph} {I : Interpretation V} {given : MatrixId → Option (List V)}
  {a b e : MatrixId} {p : Pattern} {x y z : Nat → Nat → V}

/-- **Partial derivatives of unary operations** serve on the pattern of the result. -/
theorem serves_unaryPartial (op : UnaryOp) (ha : g.Serves I.algebra given p a x)
    (he : g.Serves I.algebra given p e z) :
    Keeps (unaryPartial elementwiseAlgebra op a e) g fun d h =>
      h.Serves I.algebra given p d fun r c => I.unaryPartial op (x r c) (z r c) := by
  have hA := I.simplifies.toOnRing
  have hscalar : ∀ v h, Keeps (scalar v) h fun d k =>
      k.Serves I.algebra given p d fun _ _ => I.literal v := fun v _ => serves_scalar v
  cases op with
  | neg => exact hscalar _ _
  | sqrt => exact (hscalar _ _).bind fun half h hgh hhalf => serves_binary hA .div hhalf (he.grow hgh)
  | sin => exact serves_unary hA .cos ha
  | cos => exact (serves_unary hA .sin ha).bind fun s h _ hs => serves_unary hA .neg hs
  | tan =>
    refine (hscalar _ _).bind fun one h hgh hone => ?_
    refine (serves_binary hA .mul (he.grow hgh) (he.grow hgh)).bind fun square k hhk hsquare => ?_
    exact serves_binary hA .add (hone.grow hhk) hsquare
  | exp => exact keeps_pure he
  | log => exact (hscalar _ _).bind fun one h hgh hone => serves_binary hA .div hone (ha.grow hgh)
  | tanh =>
    refine (hscalar _ _).bind fun one h hgh hone => ?_
    refine (serves_binary hA .mul (he.grow hgh) (he.grow hgh)).bind fun square k hhk hsquare => ?_
    exact serves_binary hA .sub (hone.grow hhk) hsquare

/-- **Partial derivatives of binary operations** serve on the pattern of the result. -/
theorem serves_binaryPartial (op : BinaryOp) (side : Side) (ha : g.Serves I.algebra given p a x)
    (hb : g.Serves I.algebra given p b y) (he : g.Serves I.algebra given p e z) :
    Keeps (binaryPartial elementwiseAlgebra op side a b e) g fun d h =>
      h.Serves I.algebra given p d fun r c => I.binaryPartial op side (x r c) (y r c) (z r c) := by
  have hA := I.simplifies.toOnRing
  have hscalar : ∀ v h, Keeps (scalar v) h fun d k =>
      k.Serves I.algebra given p d fun _ _ => I.literal v := fun v _ => serves_scalar v
  cases op with
  | add => exact hscalar _ _
  | sub => cases side <;> exact hscalar _ _
  | mul =>
    cases side with
    | left => exact keeps_pure hb
    | right => exact keeps_pure ha
  | div =>
    cases side with
    | left =>
      exact (hscalar _ _).bind fun one h hgh hone => serves_binary hA .div hone (hb.grow hgh)
    | right =>
      exact (serves_binary hA .div he hb).bind fun quotient h _ hquotient =>
        serves_unary hA .neg hquotient
  | pow =>
    cases side with
    | left =>
      refine (hscalar _ _).bind fun one h hgh hone => ?_
      refine (serves_binary hA .sub (hb.grow hgh) hone).bind fun exponent k hhk hexponent => ?_
      have hgk := hgh.trans hhk
      refine (serves_binary hA .pow (ha.grow hgk) hexponent).bind fun power l hkl hpower => ?_
      exact serves_binary hA .mul (hb.grow (hgk.trans hkl)) hpower
    | right =>
      exact (serves_unary hA .log ha).bind fun l h hgh hl => serves_binary hA .mul (he.grow hgh) hl

end Partials

end MatrixBuilder

end Fluxion
