import Fluxion.Proofs.Matrix.Entries
import Fluxion.Proofs.Scalar.Checked

/-!
# Meaning by one rule for each kind of node

What a matrix expression means can be said without tapes and without the loops that tapes run: by a
rule for each kind of node, from the meaning of the operands. An elementwise operation takes the
operands nonzero by nonzero and repeats one that is not on the pattern; a product sums the terms of
each entry in storage order; an embedded routine means what the scalar expressions mean that it was
compiled from. Every access in a rule is to a nonzero that is there, or the rule does not apply.

A value that the rules give is the value of the expression, so the rules give at most one. They give
one to every expression that is built from symbols with values, if all embedded routines were compiled
from expressions.

## Main definitions

* `Routine.ComesFrom` — the scalar expressions that a routine was compiled from
* `MatrixGraph.Denotes` — the rules

## Main results

* `MatrixGraph.Denotes.eq_evaluate` — **rules agree with values**
* `MatrixGraph.denotes_evaluate` — **the rules give every expression its value**
-/

namespace Fluxion

variable {V : Type} {A : Algebra Id V} {z : V}

/-! ### Embedded routines -/

/-- The routine was compiled from expressions of a scalar graph. -/
structure Routine.ComesFrom (r : Routine) (origin : ScalarGraph)
    (inputs outputs : List (SparseMatrix ScalarId)) : Prop where
  compile : ScalarTape.compile origin inputs outputs = .ok r.tape
  inPatterns : r.inPatterns = inputs.map SparseMatrix.pattern
  outPatterns : r.outPatterns = outputs.map SparseMatrix.pattern

namespace Routine.ComesFrom

variable {r : Routine} {origin : ScalarGraph} {inputs outputs : List (SparseMatrix ScalarId)}

theorem inSizes (hr : r.ComesFrom origin inputs outputs) :
    r.inSizes = ScalarTape.countsOf inputs := by
  rw [Routine.inSizes, hr.inPatterns, ScalarTape.map_nnz_pattern]

theorem outSizes (hr : r.ComesFrom origin inputs outputs) :
    r.outSizes = ScalarTape.countsOf outputs := by
  rw [Routine.outSizes, hr.outPatterns, ScalarTape.map_nnz_pattern]

end Routine.ComesFrom

/-- The routine was compiled from expressions. -/
def Routine.IsCompiled (r : Routine) : Prop :=
  ∃ origin inputs outputs, r.ComesFrom origin inputs outputs

/-! ### Rules -/

namespace MatrixNode

/-- The nonzero that an elementwise operation on `p` takes of an operand on `q`: the same one, or the
only one of an operand that is repeated. -/
def operandPlace (p q : Pattern) (k : Nat) : Nat := if q = p then k else 0

/-- An operation on each pair of nonzeros, on `p`, of operands on `q` and `r`. -/
def elementwise (A : Algebra Id V) (op : BinaryOp) (p q r : Pattern) (x y : List V) :
    Option (List V) :=
  (List.range p.nnz).mapM fun k => do
    return A.binary op (← x[operandPlace p q k]?) (← y[operandPlace p r k]?)

/-- The product of a matrix on `p` and one on `q`: each entry is the sum of its terms in storage
order. -/
def productOf (A : Algebra Id V) (p q : Pattern) (x y : List V) : Option (List V) :=
  (p.product q).positions.mapM fun (i, j) => do
    sumOf A (← (p.entryTerms q i j).mapM fun (h, k) => do return A.binary .mul (← x[h]?) (← y[k]?))

/-- Nonzeros taken from where the map says, and zero where it says nothing. -/
def gatherFrom (z : V) (map : GatherMap) (xs : Bundle V) : Option (List V) :=
  map.mapM fun
    | none => some z
    | some (i, k) => do (← xs[i]?)[k]?

/-- Nonzeros added up where the map says, on `p`, and zero where nothing is added. -/
def scatterTo (A : Algebra Id V) (z : V) (map : ScatterMap) (p : Pattern) (x : List V) :
    Option (List V) :=
  (List.range p.nnz).mapM fun r => do
    return (sumOf A (← (map.termsAt r).mapM (x[·]?))).getD z

end MatrixNode

namespace MatrixGraph

open MatrixNode

/-- The nonzeros of an expression, by a rule for each kind of node. Values are given for symbols. -/
inductive Denotes (g : MatrixGraph) (A : Algebra Id V) (given : MatrixId → Option (List V)) :
    MatrixId → List V → Prop
  | symbol {e serial p x} : g.node? e = some (.symbol serial p) → given e = some x →
      Denotes g A given e x
  | constant {e m} : g.node? e = some (.constant m) → Denotes g A given e (m.values.map A.constant)
  | unary {e op a x} : g.node? e = some (.unary op a) → Denotes g A given a x →
      Denotes g A given e (x.map (A.unary op))
  | binary {e op a b p q r x y z} : g.node? e = some (.binary op a b) → g.pattern? e = some p →
      g.pattern? a = some q → g.pattern? b = some r → Denotes g A given a x →
      Denotes g A given b y → elementwise A op p q r x y = some z → Denotes g A given e z
  | product {e a b p q x y z} : g.node? e = some (.product a b) → g.pattern? a = some p →
      g.pattern? b = some q → Denotes g A given a x → Denotes g A given b y →
      productOf A p q x y = some z → Denotes g A given e z
  | gather {e arguments map p z} {xs : Bundle V} : g.node? e = some (.gather arguments map p) →
      arguments.length = xs.length →
      (∀ (i : Nat) a x, arguments[i]? = some a → xs[i]? = some x → Denotes g A given a x) →
      gatherFrom (A.constant 0.0) map xs = some z → Denotes g A given e z
  | scatter {e a map p x z} : g.node? e = some (.scatter a map p) → Denotes g A given a x →
      scatterTo A (A.constant 0.0) map p x = some z → Denotes g A given e z
  | call {e r arguments o origin inputs outputs m} {xs : Bundle V} : g.node? e = some (.call r arguments o) →
      arguments.length = xs.length →
      (∀ (i : Nat) a x, arguments[i]? = some a → xs[i]? = some x → Denotes g A given a x) →
      r.ComesFrom origin inputs outputs → outputs[o]? = some m →
      Denotes g A given e (m.values.map
        (origin.evaluate A (r.tape.reading inputs (A.constant 0.0) xs [])))
  | lift {e value guess x} : g.node? e = some (.lift value guess) → Denotes g A given value x →
      Denotes g A given e x

end MatrixGraph

/-! ### Rules and loops -/

namespace MatrixNode

open ScalarTape (mapM_some)

theorem getElem?_eq_getD {x : List V} {k : Nat} (hk : k < x.length) :
    x[k]? = some (x.getD k z) := by
  rw [List.getD_eq_getElem _ _ hk, List.getElem?_eq_getElem hk]

/-- Looking at the number of nonzeros is enough to find out whether an operand is repeated. -/
theorem getElem?_operandPlace {p q : Pattern} {x : List V} {k : Nat} (hk : k < p.nnz)
    (hx : x.length = q.nnz) (hq : q = p ∨ q = .scalar) :
    x[operandPlace p q k]? = some (pick z x.toArray k) := by
  have hpick : pick z x.toArray k = x.getD (if x.length = 1 then 0 else k) z := by
    rw [pick, List.size_toArray]
    split <;> rw [Pattern.getD_toArray]
  rw [hpick, operandPlace]
  split
  · rename_i hqp
    have hk : k < x.length := by rw [hx, hqp]; exact hk
    have hplace : (if x.length = 1 then 0 else k) = k := by split <;> omega
    rw [hplace, getElem?_eq_getD (z := z) hk]
  · rename_i hqp
    obtain rfl := hq.resolve_left hqp
    have hlength : x.length = 1 := hx
    rw [if_pos hlength, getElem?_eq_getD (z := z) (by omega)]

theorem elementwise_eq {op : BinaryOp} {p q r : Pattern} {x y : List V} (hx : x.length = q.nnz)
    (hy : y.length = r.nnz) (hq : q = p ∨ q = .scalar) (hr : r = p ∨ r = .scalar) :
    elementwise A op p q r x y = some (Id.run (MatrixOp.runBinary A z op p x y)) := by
  rw [MatrixOp.runBinary_eq]
  refine mapM_some fun k hk => ?_
  have hk := List.mem_range.mp hk
  rw [getElem?_operandPlace (z := z) hk hx hq, getElem?_operandPlace (z := z) hk hy hr]
  rfl

theorem exists_sumOf {terms : List V} (h : terms ≠ []) :
    sumOf A terms = some ((sumOf A terms).getD z) := by
  cases terms with
  | nil => contradiction
  | cons first rest => rfl

theorem productOf_eq {p q : Pattern} {x y : List V} (hx : x.length = p.nnz) (hy : y.length = q.nnz) :
    productOf A p q x y = some (Id.run (MatrixOp.runProduct A z p q (p.product q) x y)) := by
  have hterms : ∀ i j, ((p.entryTerms q i j).mapM fun t => do
      return A.binary .mul (← x[t.1]?) (← y[t.2]?) : Option (List V))
        = some ((p.entryTerms q i j).map fun t =>
          A.binary .mul (x.getD t.1 z) (y.getD t.2 z)) := by
    intro i j
    refine mapM_some fun t ht => ?_
    obtain ⟨l, hk, hh⟩ := Pattern.mem_entryTerms.mp (show (t.1, t.2) ∈ _ from ht)
    have hlx : t.1 < x.length := by
      rw [hx]
      exact (List.getElem?_eq_some_iff.mp hh).1
    have hly : t.2 < y.length := by
      rw [hy]
      exact (List.getElem?_eq_some_iff.mp hk).1
    rw [getElem?_eq_getD (z := z) hlx, getElem?_eq_getD (z := z) hly]
    rfl
  have hentries : productOf A p q x y = some ((p.product q).positions.map fun ij =>
      (sumOf A ((p.entryTerms q ij.1 ij.2).map fun t =>
        A.binary .mul (x.getD t.1 z) (y.getD t.2 z))).getD z) := by
    refine mapM_some fun ij hij => ?_
    obtain ⟨t, ht⟩ := Pattern.exists_entryTerm (show (ij.1, ij.2) ∈ _ from hij)
    refine Eq.trans (congrArg (Option.bind · (sumOf A)) (hterms ij.1 ij.2)) ?_
    exact exists_sumOf (List.ne_nil_of_mem (List.mem_map_of_mem ht))
  rw [hentries]
  refine congrArg some (List.ext_getElem? fun r => ?_)
  rw [List.getElem?_map]
  cases hr : (p.product q).positions[r]? with
  | none =>
    have hlength : (Id.run (MatrixOp.runProduct A z p q (p.product q) x y)).length ≤ r := by
      rw [MatrixOp.length_runProduct]
      exact List.getElem?_eq_none_iff.mp hr
    rw [List.getElem?_eq_none hlength]
    rfl
  | some ij => exact (MatrixOp.getElem?_runProduct x y hr).symm

theorem gatherFrom_eq {map : GatherMap} {xs : Bundle V}
    (hmap : ∀ i k, some (i, k) ∈ map → ∃ x, xs[i]? = some x ∧ k < x.length) :
    gatherFrom z map xs = some (MatrixOp.runGather z map xs) := by
  refine mapM_some fun entry hentry => ?_
  cases entry with
  | none => rfl
  | some ik =>
    obtain ⟨x, hx, hk⟩ := hmap ik.1 ik.2 hentry
    have hsource : (xs.map List.toArray).toArray.getD ik.1 #[] = x.toArray := by
      rw [Pattern.getD_toArray, List.getD_eq_getElem?_getD, List.getElem?_map, hx]
      rfl
    show (xs[ik.1]?).bind (·[ik.2]?)
      = some (((xs.map List.toArray).toArray.getD ik.1 #[]).getD ik.2 z)
    rw [hsource, Pattern.getD_toArray, hx]
    exact getElem?_eq_getD hk

theorem scatterTo_eq {map : ScatterMap} {p : Pattern} {x : List V} (hlength : map.length = x.length) :
    scatterTo A z map p x = some (Id.run (MatrixOp.runScatter A z map p x)) := by
  have hterms : ∀ r, (map.termsAt r).mapM (x[·]?)
      = some ((map.termsAt r).map (x.getD · z)) := by
    refine fun r => mapM_some fun k hk => getElem?_eq_getD ?_
    rw [← hlength]
    exact (List.getElem?_eq_some_iff.mp (MatrixOp.mem_termsAt.mp hk)).1
  have hentries : scatterTo A z map p x = some ((List.range p.nnz).map fun r =>
      (sumOf A ((map.termsAt r).map (x.getD · z))).getD z) :=
    mapM_some fun r _ =>
      congrArg (Option.bind · fun terms => some ((sumOf A terms).getD z)) (hterms r)
  rw [hentries]
  refine congrArg some (List.ext_getElem? fun r => ?_)
  rw [List.getElem?_map]
  by_cases hr : r < p.nnz
  · rw [List.getElem?_range hr]
    exact (MatrixOp.getElem?_runScatter hlength hr).symm
  · have hout : (Id.run (MatrixOp.runScatter A z map p x)).length ≤ r := by
      rw [MatrixOp.length_runScatter]
      omega
    rw [List.getElem?_eq_none hout, List.getElem?_eq_none (by simpa using hr)]
    rfl

end MatrixNode

/-! ### Values obey the rules -/

namespace MatrixGraph

open MatrixNode

variable {g : MatrixGraph} {given : MatrixId → Option (List V)} {e a b : MatrixId} {p q r : Pattern}

/-- Values are given for symbols only, and they fit the patterns. -/
structure Gives (g : MatrixGraph) (given : MatrixId → Option (List V)) : Prop where
  symbols : ∀ e x, given e = some x → g.isSymbol e = true
  fits : ∀ e x p, given e = some x → g.pattern? e = some p → x.length = p.nnz

theorem Gives.eq_none (hgiven : g.Gives given) {n : MatrixNode} (hn : g.node? e = some n)
    (hsymbol : n.isSymbol = false) : given e = none := by
  cases hx : given e with
  | none => rfl
  | some x =>
    have := hgiven.symbols e x hx
    rw [isSymbol, hn, Option.any_some, hsymbol] at this
    contradiction

variable (hg : g.WellTyped) (hgiven : g.Gives given)

include hg hgiven

theorem elementwise_evaluate {op : BinaryOp} (hn : g.node? e = some (.binary op a b))
    (hp : g.pattern? e = some p) (hq : g.pattern? a = some q) (hr : g.pattern? b = some r) :
    elementwise A op p q r (g.evaluate A given a) (g.evaluate A given b)
      = some (g.evaluate A given e) := by
  have hfits : ∀ {d s}, g.Fits p d → g.pattern? d = some s → s = p ∨ s = .scalar := by
    intro d s hd hs
    exact hd.imp (fun h => Option.some.inj (hs.symm.trans h)) fun h => Option.some.inj (hs.symm.trans h)
  cases hg.typed e _ p hn hp with
  | binary ha hb _ =>
    rw [elementwise_eq (z := A.constant 0.0) (hg.length_evaluate hgiven.fits hq)
      (hg.length_evaluate hgiven.fits hr) (hfits ha hq) (hfits hb hr),
      evaluate_of_node? (hgiven.eq_none hn rfl) hn, patternIn_eq hp]
    rfl

theorem productOf_evaluate (hn : g.node? e = some (.product a b)) (hp : g.pattern? a = some p)
    (hq : g.pattern? b = some q) :
    productOf A p q (g.evaluate A given a) (g.evaluate A given b) = some (g.evaluate A given e) := by
  obtain ⟨r, hr, htyped⟩ := hg.exists_typed hn
  cases htyped with
  | product ha hb _ =>
    obtain rfl := Option.some.inj (hp.symm.trans ha)
    obtain rfl := Option.some.inj (hq.symm.trans hb)
    rw [productOf_eq (z := A.constant 0.0) (hg.length_evaluate hgiven.fits hp)
      (hg.length_evaluate hgiven.fits hq), evaluate_of_node? (hgiven.eq_none hn rfl) hn,
      patternIn_eq hr, apply, patternIn_eq hp, patternIn_eq hq]
    rfl

theorem gatherFrom_evaluate {arguments : List MatrixId} {map : GatherMap}
    (hn : g.node? e = some (.gather arguments map p)) :
    gatherFrom (A.constant 0.0) map (arguments.map (g.evaluate A given))
      = some (g.evaluate A given e) := by
  obtain ⟨q, hq, htyped⟩ := hg.exists_typed hn
  cases htyped with
  | gather hmap =>
    rw [gatherFrom_eq, evaluate_of_node? (hgiven.eq_none hn rfl) hn]
    · rfl
    · intro i k hik
      obtain ⟨d, s, hd, hs, hk⟩ := hmap.reaches i k hik
      refine ⟨g.evaluate A given d, by rw [List.getElem?_map, hd]; rfl, ?_⟩
      rwa [hg.length_evaluate hgiven.fits hs]

theorem scatterTo_evaluate {map : ScatterMap} (hn : g.node? e = some (.scatter a map p)) :
    scatterTo A (A.constant 0.0) map p (g.evaluate A given a) = some (g.evaluate A given e) := by
  obtain ⟨q, hq, htyped⟩ := hg.exists_typed hn
  cases htyped with
  | scatter ha hlength _ =>
    rw [scatterTo_eq (hlength.trans (hg.length_evaluate hgiven.fits ha).symm),
      evaluate_of_node? (hgiven.eq_none hn rfl) hn, patternIn_eq hq]
    rfl

omit hg in
theorem evaluate_call {r : Routine} {arguments : List MatrixId} {o : Nat}
    (hn : g.node? e = some (.call r arguments o)) {origin : ScalarGraph}
    {inputs outputs : List (SparseMatrix ScalarId)} (hr : r.ComesFrom origin inputs outputs)
    {m : SparseMatrix ScalarId} (hm : outputs[o]? = some m) :
    g.evaluate A given e = m.values.map (origin.evaluate A
      (r.tape.reading inputs (A.constant 0.0) (arguments.map (g.evaluate A given)) [])) := by
  have hcompiled := ScalarTape.compiled_of_compile hr.compile
  have hreplay := hcompiled.replay_eq (A := A)
    (ScalarTape.supplies_reading hcompiled _ (arguments.map (g.evaluate A given)) [])
  rw [evaluate_of_node? (hgiven.eq_none hn rfl) hn, apply, hr.outSizes, hreplay,
    List.getD_eq_getElem?_getD, List.getElem?_map, hm]
  rfl

/-- **Rules agree with values.** -/
theorem Denotes.eq_evaluate {x : List V} (h : g.Denotes A given e x) : x = g.evaluate A given e := by
  have hoperands : ∀ {arguments : List MatrixId} {xs : Bundle V}, arguments.length = xs.length →
      (∀ (i : Nat) a x, arguments[i]? = some a → xs[i]? = some x → x = g.evaluate A given a) →
      xs = arguments.map (g.evaluate A given) := by
    intro arguments xs hlength hxs
    refine List.ext_getElem (by simp [hlength]) fun i hi _ => ?_
    rw [List.getElem_map]
    exact hxs i _ _ (List.getElem?_eq_getElem (hlength ▸ hi)) (List.getElem?_eq_getElem hi)
  induction h with
  | symbol hn hx => exact (evaluate_of_given hx).symm
  | constant hn => exact (evaluate_of_node? (hgiven.eq_none hn rfl) hn).symm
  | unary hn _ ih =>
    rw [ih]
    exact (evaluate_of_node? (hgiven.eq_none hn rfl) hn).symm
  | binary hn hp hq hr _ _ hz ihx ihy =>
    rw [ihx, ihy, elementwise_evaluate hg hgiven hn hp hq hr] at hz
    exact (Option.some.inj hz).symm
  | product hn hp hq _ _ hz ihx ihy =>
    rw [ihx, ihy, productOf_evaluate hg hgiven hn hp hq] at hz
    exact (Option.some.inj hz).symm
  | gather hn hlength _ hz ih =>
    rw [hoperands hlength ih, gatherFrom_evaluate hg hgiven hn] at hz
    exact (Option.some.inj hz).symm
  | scatter hn _ hz ih =>
    rw [ih, scatterTo_evaluate hg hgiven hn] at hz
    exact (Option.some.inj hz).symm
  | call hn hlength _ hr hm ih =>
    rw [hoperands hlength ih]
    exact (evaluate_call hgiven hn hr hm).symm
  | lift hn _ ih =>
    rw [ih]
    exact (evaluate_of_node? (hgiven.eq_none hn rfl) hn).symm

/-- **The rules give every expression its value**, in any set of expressions that has the operands of
its members, if values are given for the symbols in it and its routines were compiled from
expressions. -/
theorem denotes_evaluate {S : MatrixId → Prop}
    (hclosed : ∀ e, S e → ∃ n, g.node? e = some n ∧ ∀ a ∈ n.valueOperands, S a)
    (hsymbols : ∀ e, S e → g.isSymbol e = true → ∃ x, given e = some x)
    (hroutines : ∀ e r arguments o, S e → g.node? e = some (.call r arguments o) → r.IsCompiled)
    (he : S e) : g.Denotes A given e (g.evaluate A given e) := by
  induction e using valueOperands_induction g with
  | step e ih =>
    obtain ⟨n, hn, hoperands⟩ := hclosed e he
    obtain ⟨p, hp, htyped⟩ := hg.exists_typed hn
    have hvalue : ∀ a ∈ n.valueOperands, g.Denotes A given a (g.evaluate A given a) := fun a ha =>
      ih n hn a ha (hoperands a ha)
    have harguments : ∀ arguments : List MatrixId, arguments = n.valueOperands →
        ∀ (i : Nat) a x, arguments[i]? = some a →
          (arguments.map (g.evaluate A given))[i]? = some x → g.Denotes A given a x := by
      intro arguments heq i a x ha hx
      rw [List.getElem?_map, ha] at hx
      obtain rfl := Option.some.inj hx
      exact hvalue a (heq ▸ List.mem_of_getElem? ha)
    cases htyped with
    | symbol _ =>
      obtain ⟨x, hx⟩ := hsymbols e he (by rw [isSymbol, hn]; rfl)
      rw [evaluate_of_given hx]
      exact .symbol hn hx
    | constant m =>
      rw [evaluate_of_node? (hgiven.eq_none hn rfl) hn]
      exact .constant hn
    | @unary op a p ha _ =>
      rw [evaluate_of_node? (hgiven.eq_none hn rfl) hn]
      exact .unary hn (hvalue a (by simp [MatrixNode.valueOperands, MatrixNode.operands]))
    | @binary op a b p ha hb _ =>
      obtain ⟨q, hq⟩ : ∃ q, g.pattern? a = some q := ha.elim (⟨_, ·⟩) (⟨_, ·⟩)
      obtain ⟨r, hr⟩ : ∃ r, g.pattern? b = some r := hb.elim (⟨_, ·⟩) (⟨_, ·⟩)
      exact .binary hn hp hq hr (hvalue a (by simp [MatrixNode.valueOperands, MatrixNode.operands]))
        (hvalue b (by simp [MatrixNode.valueOperands, MatrixNode.operands]))
        (elementwise_evaluate hg hgiven hn hp hq hr)
    | @product a b p q ha hb _ =>
      exact .product hn ha hb
        (hvalue a (by simp [MatrixNode.valueOperands, MatrixNode.operands]))
        (hvalue b (by simp [MatrixNode.valueOperands, MatrixNode.operands]))
        (productOf_evaluate hg hgiven hn ha hb)
    | @gather arguments map p hmap =>
      exact .gather hn (List.length_map _).symm (harguments arguments rfl)
        (gatherFrom_evaluate hg hgiven hn)
    | @scatter a map p q ha _ _ =>
      exact .scatter hn (hvalue a (by simp [MatrixNode.valueOperands, MatrixNode.operands]))
        (scatterTo_evaluate hg hgiven hn)
    | @call r arguments o p _ ho =>
      obtain ⟨origin, inputs, outputs, hr⟩ := hroutines e r arguments o he hn
      rw [hr.outPatterns, List.getElem?_map] at ho
      obtain ⟨m, hm, -⟩ := Option.map_eq_some_iff.mp ho
      rw [evaluate_call hgiven hn hr hm]
      exact .call hn (List.length_map _).symm (harguments arguments rfl) hr hm
    | @lift value guess p _ _ =>
      rw [evaluate_of_node? (hgiven.eq_none hn rfl) hn]
      exact .lift hn (hvalue value (by simp [MatrixNode.valueOperands]))

end MatrixGraph

end Fluxion
