import Fluxion.Proofs.Matrix.Calls
import Fluxion.Proofs.Matrix.Partials

/-!
# Directions of a sweep

What sweeps in both directions have in common. A derivative that is missing counts as zero. Partial
derivatives of a node are made for one direction and handed on to the others, and derivative functions
are asked for once for all directions. Whatever is known of derivatives is known where the graph that is
left in the end is reliable.

## Main definitions

* `MatrixGraph.AmountsTo` — an expression that may be missing amounts to a matrix
* `MatrixGraph.ReadsAs` — an expression that may be missing or on another pattern is read as a matrix
* `MatrixGraph.unaryPartialOf`, `MatrixGraph.binaryPartialOf` — partial derivatives of a node
* `MatrixGraph.Handed` — what was handed on, if anything, serves

## Main results

* `MatrixGraph.serves_unaryPartialOf`, `MatrixGraph.serves_binaryPartialOf` — partial derivatives are
  made, or were
* `MatrixTape.keeps_derivativeRoutine_exact` — derivative functions that a reliable graph was asked for
-/

namespace Fluxion

open MatrixBuilder

variable {V : Type} [CommRing V]

namespace Pattern

variable {p q : Pattern} {x y : Nat → Nat → V} {r c : Nat}

theorem masked_eq_zero (hx : ∀ r c, (r, c) ∈ p.positions → x r c = 0) (r c : Nat) :
    p.masked x r c = 0 := by
  by_cases h : (r, c) ∈ p.positions
  · rw [masked_of_mem h, hx r c h]
  · exact masked_of_not_mem h

theorem spread_eq_zero (hx : ∀ r c, (r, c) ∈ q.positions → x r c = 0) (r c : Nat) :
    q.spread p x r c = 0 := by
  rw [spread]
  split
  · exact masked_eq_zero hx r c
  · exact masked_eq_zero hx 0 0

theorem spread_self (h : (r, c) ∈ p.positions) : p.spread p x r c = x r c := by
  rw [spread, if_pos rfl, masked_of_mem h]

end Pattern

namespace MatrixGraph

/-! ### Derivatives that may be missing -/

section Missing

variable {g h : MatrixGraph} {A : Algebra Id V} {given : MatrixId → Option (List V)} {p : Pattern}
  {x y : Nat → Nat → V} {t : Option MatrixId}

/-- An expression that may be missing amounts to a matrix: it stores the elements, or it is missing and
they are zero. -/
def AmountsTo (g : MatrixGraph) (A : Algebra Id V) (given : MatrixId → Option (List V))
    (t : Option MatrixId) (p : Pattern) (x : Nat → Nat → V) : Prop :=
  match t with
  | some t => g.Stores A given t p x
  | none => ∀ r c, (r, c) ∈ p.positions → x r c = 0

theorem AmountsTo.grow (ht : g.AmountsTo A given t p x) (hgrow : g.Grows h) : h.AmountsTo A given t p x := by
  cases t with
  | some t => exact Stores.grow ht hgrow
  | none => exact ht

theorem AmountsTo.congr (ht : g.AmountsTo A given t p x) (hxy : ∀ r c, (r, c) ∈ p.positions → x r c = y r c) :
    g.AmountsTo A given t p y := by
  cases t with
  | some t => exact Stores.congr ht hxy
  | none => exact fun r c h => (hxy r c h).symm.trans (ht r c h)

/-- An expression that may be missing, and may be on any pattern of the shape, is read as a matrix: on
the pattern it has the elements, or it is missing and they are zero. -/
def ReadsAs (g : MatrixGraph) (A : Algebra Id V) (given : MatrixId → Option (List V))
    (t : Option MatrixId) (p : Pattern) (x : Nat → Nat → V) : Prop :=
  match t with
  | some t => ∃ q y, q.shape = p.shape ∧ g.Stores A given t q y ∧
    ∀ r c, (r, c) ∈ p.positions → q.masked y r c = x r c
  | none => ∀ r c, (r, c) ∈ p.positions → x r c = 0

theorem AmountsTo.readsAs (ht : g.AmountsTo A given t p x) : g.ReadsAs A given t p x := by
  cases t with
  | some t => exact ⟨p, x, rfl, ht, fun r c h => Pattern.masked_of_mem h⟩
  | none => exact ht

theorem ReadsAs.grow (ht : g.ReadsAs A given t p x) (hgrow : g.Grows h) : h.ReadsAs A given t p x := by
  cases t with
  | some t =>
    obtain ⟨q, y, hshape, hstores, hy⟩ := ht
    exact ⟨q, y, hshape, hstores.grow hgrow, hy⟩
  | none => exact ht

theorem ReadsAs.congr (ht : g.ReadsAs A given t p x) (hxy : ∀ r c, (r, c) ∈ p.positions → x r c = y r c) :
    g.ReadsAs A given t p y := by
  cases t with
  | some t =>
    obtain ⟨q, z, hshape, hstores, hz⟩ := ht
    exact ⟨q, z, hshape, hstores, fun r c h => (hz r c h).trans (hxy r c h)⟩
  | none => exact fun r c h => (hxy r c h).symm.trans (ht r c h)

/-- A sum of two expressions on a pattern. -/
theorem stores_add (hA : A.OnRing) {a b : MatrixId} (ha : g.Stores A given a p x)
    (hb : g.Stores A given b p y) :
    Keeps (binary .add a b) g fun e h => h.Stores A given e p fun r c => x r c + y r c := by
  refine (stores_binary hA .add ha hb).imp fun e h _ he => ?_
  obtain ⟨q, hq, he⟩ := he
  rw [elementwisePattern_add_self] at hq
  obtain rfl := Except.ok.inj hq
  refine he.congr fun r c hrc => ?_
  rw [Pattern.spread_self hrc, Pattern.spread_self hrc, hA.add]

end Missing

/-! ### Partial derivatives -/

section Partials

variable {g h : MatrixGraph} {I : Interpretation V} {given : MatrixId → Option (List V)}
  {dx : MatrixId → Nat → V} {a b e x y : MatrixId} {p pa pb : Pattern} {r c : Nat}

/-- The partial derivative of a unary result, as a matrix. -/
def unaryPartialOf (g : MatrixGraph) (I : Interpretation V) (given : MatrixId → Option (List V))
    (op : UnaryOp) (x e : MatrixId) (r c : Nat) : V :=
  I.unaryPartial op (g.elementOf I.algebra given x r c) (g.elementOf I.algebra given e r c)

/-- The partial derivative of a binary result on a pattern, as a matrix. Operands are repeated if they
have to be. -/
def binaryPartialOf (g : MatrixGraph) (I : Interpretation V) (given : MatrixId → Option (List V))
    (op : BinaryOp) (side : Side) (p : Pattern) (x y e : MatrixId) (r c : Nat) : V :=
  I.binaryPartial op side
    ((MatrixTape.patternIn g x).spread p (g.elementOf I.algebra given x) r c)
    ((MatrixTape.patternIn g y).spread p (g.elementOf I.algebra given y) r c)
    (g.elementOf I.algebra given e r c)

theorem unaryPartialOf_of_grows (hgrow : g.Grows h) (hx : g.pattern? x = some p)
    (he : g.pattern? e = some p) (op : UnaryOp) :
    h.unaryPartialOf I given op x e = g.unaryPartialOf I given op x e := by
  funext r c
  rw [unaryPartialOf, unaryPartialOf, elementOf_of_grows hgrow hx, elementOf_of_grows hgrow he]

theorem binaryPartialOf_of_grows (hgrow : g.Grows h) (hx : g.pattern? x = some pa)
    (hy : g.pattern? y = some pb) (he : g.pattern? e = some p) (op : BinaryOp) (side : Side) :
    h.binaryPartialOf I given op side p x y e = g.binaryPartialOf I given op side p x y e := by
  funext r c
  rw [binaryPartialOf, binaryPartialOf, elementOf_of_grows hgrow hx, elementOf_of_grows hgrow hy,
    elementOf_of_grows hgrow he, patternIn_eq (hgrow.pattern? hx), patternIn_eq (hgrow.pattern? hy),
    patternIn_eq hx, patternIn_eq hy]

theorem exists_pattern?_of_fits (hfits : g.Fits p a) :
    ∃ q, g.pattern? a = some q ∧ (q = p ∨ q = .scalar) :=
  hfits.elim (fun h => ⟨p, h, .inl rfl⟩) fun h => ⟨.scalar, h, .inr rfl⟩

/-- Binary results move as their partial derivatives say. -/
theorem tangentOf_binary_partial (hg : g.Sound I given) {op : BinaryOp}
    (hn : g.node? e = some (.binary op x y)) (hp : g.pattern? e = some p)
    (hx : g.pattern? x = some pa) (hy : g.pattern? y = some pb) (hfx : g.Fits p x) (hfy : g.Fits p y)
    (h : (r, c) ∈ p.positions) : g.tangentOf I given dx e r c
      = g.binaryPartialOf I given op .left p x y e r c * pa.spread p (g.tangentOf I given dx x) r c
        + g.binaryPartialOf I given op .right p x y e r c
          * pb.spread p (g.tangentOf I given dx y) r c := by
  rw [tangentOf_binary hg hn hp hx hy hfx hfy h, binaryPartialOf, binaryPartialOf, patternIn_eq hx,
    patternIn_eq hy]

/-- A free symbol does not move. -/
theorem tangentOf_free (hg : g.Sound I given) {serial : Nat} {q : Pattern}
    (hn : g.node? e = some (.symbol serial q)) (hp : g.pattern? e = some p) (hfixed : dx e = 0) :
    g.tangentOf I given dx e = 0 := by
  cases hgiven : given e with
  | none => exact tangentOf_symbol hgiven hn
  | some values =>
    funext r c
    by_cases h : (r, c) ∈ p.positions
    · obtain ⟨k, hk⟩ := List.getElem?_of_mem h
      rw [tangentOf_given hgiven hg hp hk, hfixed]
      rfl
    · exact tangentOf_of_not_mem hp h

/-- What was handed on, if anything, serves on a pattern. -/
def Handed (g : MatrixGraph) (A : Algebra Id V) (given : MatrixId → Option (List V)) (p : Pattern)
    (z : Nat → Nat → V) (made : Option MatrixId) : Prop :=
  ∀ d, made = some d → g.Serves A given p d z

theorem Handed.grow {A : Algebra Id V} {made : Option MatrixId} {z : Nat → Nat → V}
    (hmade : g.Handed A given p z made) (hgrow : g.Grows h) : h.Handed A given p z made :=
  fun d hd => (hmade d hd).grow hgrow

theorem handed_none {A : Algebra Id V} {z : Nat → Nat → V} : g.Handed A given p z none :=
  fun _ h => nomatch h

theorem handed_some {A : Algebra Id V} {d : MatrixId} {z : Nat → Nat → V}
    (hd : g.Serves A given p d z) : g.Handed A given p z (some d) :=
  fun _ h => Option.some.inj h ▸ hd

theorem serves_onDemand {A : Algebra Id V} {made : Option MatrixId} {make : MatrixBuilder MatrixId}
    {z : Nat → Nat → V} (hmade : g.Handed A given p z made)
    (hmake : Keeps make g fun d h => h.Serves A given p d z) :
    Keeps (onDemand made make) g fun d h => h.Serves A given p d z := by
  cases made with
  | some d => exact keeps_pure (hmade d rfl)
  | none => exact hmake

/-- Partial derivatives of unary results are made, or were. -/
theorem serves_unaryPartialOf (hg : g.WellTyped) (hx : g.pattern? x = some p)
    (he : g.pattern? e = some p) (op : UnaryOp) {made : Option MatrixId}
    (hmade : g.Handed I.algebra given p (g.unaryPartialOf I given op x e) made) :
    Keeps (onDemand made (unaryPartial elementwiseAlgebra op x e)) g fun d h =>
      h.Serves I.algebra given p d (g.unaryPartialOf I given op x e) :=
  serves_onDemand hmade
    (serves_unaryPartial op (stores_elementOf hg hx).serves (stores_elementOf hg he).serves)

/-- Partial derivatives of binary results are made, or were. -/
theorem serves_binaryPartialOf (hg : g.WellTyped) (hx : g.pattern? x = some pa)
    (hy : g.pattern? y = some pb) (he : g.pattern? e = some p) (hfx : g.Fits p x) (hfy : g.Fits p y)
    (op : BinaryOp) (side : Side) {made : Option MatrixId}
    (hmade : g.Handed I.algebra given p (g.binaryPartialOf I given op side p x y e) made) :
    Keeps (onDemand made (binaryPartial elementwiseAlgebra op side x y e)) g fun d h =>
      h.Serves I.algebra given p d (g.binaryPartialOf I given op side p x y e) := by
  have hxs : g.Stores I.algebra given x pa (g.elementOf I.algebra given x) := stores_elementOf hg hx
  have hys : g.Stores I.algebra given y pb (g.elementOf I.algebra given y) := stores_elementOf hg hy
  have hleft := serves_of_fits hfx hxs
  have hright := serves_of_fits hfy hys
  rw [← patternIn_eq hx] at hleft
  rw [← patternIn_eq hy] at hright
  exact serves_onDemand hmade
    (serves_binaryPartial op side hleft hright (stores_elementOf hg he).serves)

end Partials

end MatrixGraph

/-! ### Derivative functions -/

namespace MatrixTape

variable {g : MatrixGraph} {e : MatrixId} {r : Routine} {arguments : List MatrixId} {o : Nat}

theorem keeps_rememberDerived_mem (id : FunctionId) :
    Keeps (rememberDerived id) g fun _ h => id ∈ h.derived := by
  intro hg
  obtain ⟨hgrow, hh, -⟩ := keeps_rememberDerived id hg
  exact ⟨hgrow, hh, List.mem_cons_self ..⟩

/-- Derivative functions that a reliable graph was asked for folded exactly. -/
theorem keeps_derivativeRoutine_exact (I : Interpretation V) (given : MatrixId → Option (List V))
    (hn : g.node? e = some (.call r arguments o))
    {derivative : Except Error FunctionObject}
    (hderivative : derivative = r.forwardDerivative ∨ derivative = r.reverseDerivative) :
    Keeps (derivativeRoutine derivative) g fun s h => ∃ d, derivative = .ok d ∧ d.routine = .ok s ∧
      (h.Reliable I given → d.FoldsExact I.algebra) := by
  refine keeps_ofExcept_bind fun d hd => ?_
  refine (keeps_rememberDerived_mem d.id).bind fun _ h hgh hmem => ?_
  refine keeps_ofExcept fun s hs => ⟨d, hd, hs, fun hh => ?_⟩
  exact hh.derived e r arguments o d (hgh.node? hn)
    (hderivative.imp (fun heq => heq.symm.trans hd) (fun heq => heq.symm.trans hd)) hmem

end MatrixTape

end Fluxion
