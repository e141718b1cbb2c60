import Fluxion.Proofs.Jacobian.Routines
import Fluxion.Proofs.Matrix.Sweeping
import Fluxion.Proofs.Matrix.Tangents

/-!
# Derivatives of embedded calls

A sweep embeds the derivative functions of the routines that it meets. The forward derivative of a
routine, called with the arguments and with expressions for how these move, stores how an output moves.
The reverse derivative, called with the arguments and with weights for the outputs, stores derivatives of
the weighted outputs: paired with how the arguments move, they give how the weighted output moves.

Both need the constants that were folded when the derivative functions were made to be exact, and the
graph notes which derivative functions it was asked for.

## Main definitions

* `MatrixGraph.DerivedExact` — derivative functions that a graph was asked for folded exactly
* `Pattern.pairing` — two matrices, multiplied and summed over the positions of a pattern

## Main results

* `MatrixGraph.stores_forwardCall` — **calls of forward derivatives**
* `MatrixGraph.stores_reverseCall`, `MatrixGraph.pairing_reverseValues` — **calls of reverse derivatives**
-/

namespace Fluxion

open MatrixBuilder

variable {V : Type}

/-! ### Matrices on patterns -/

namespace Pattern

variable {p : Pattern} {x y : Nat → Nat → V}

/-- The matrix that has values, in storage order, at the positions of a pattern. -/
def placed [Zero V] (p : Pattern) (values : List V) (r c : Nat) : V :=
  (p.find? r c).elim 0 (values.getD · 0)

theorem elements_placed [Zero V] {values : List V} (h : values.length = p.nnz) :
    p.elements (p.placed values) = values := by
  refine List.ext_getElem? fun k => ?_
  rw [getElem?_elements]
  cases hk : p.positions[k]? with
  | none =>
    exact (List.getElem?_eq_none (h.trans_le (List.getElem?_eq_none_iff.mp hk))).symm
  | some ij =>
    have hlt : k < values.length := h ▸ (List.getElem?_eq_some_iff.mp hk).1
    rw [Option.map_some, placed, find?_eq_some_iff.mpr hk, Option.elim_some,
      List.getElem?_eq_getElem hlt, List.getD_eq_getElem _ _ hlt]

variable [CommRing V]

/-- The products of elements at the positions of a pattern, added up. -/
def pairing (p : Pattern) (x y : Nat → Nat → V) : V := (p.elements fun r c => x r c * y r c).sum

theorem sum_range_getD (l : List V) (n : Nat) (h : l.length = n) :
    l.sum = ∑ k ∈ Finset.range n, l.getD k 0 := by
  subst h
  rw [← List.toFinset_range, List.sum_toFinset _ List.nodup_range]
  refine congrArg List.sum (List.ext_getElem (by simp) fun k hk hk' => ?_)
  rw [List.getElem_map, List.getElem_range, List.getD_eq_getElem _ _ hk]

theorem pairing_eq_sum_range (p : Pattern) (x y : Nat → Nat → V) :
    p.pairing x y
      = ∑ k ∈ Finset.range p.nnz, (p.elements x).getD k 0 * (p.elements y).getD k 0 := by
  rw [pairing, sum_range_getD _ _ length_elements]
  refine Finset.sum_congr rfl fun k _ => ?_
  simp only [List.getD_eq_getElem?_getD, getElem?_elements]
  cases p.positions[k]? with
  | none => exact (mul_zero 0).symm
  | some ij => rfl

theorem pairing_congr {x' y' : Nat → Nat → V}
    (hx : ∀ r c, (r, c) ∈ p.positions → x r c = x' r c)
    (hy : ∀ r c, (r, c) ∈ p.positions → y r c = y' r c) : p.pairing x y = p.pairing x' y' :=
  congrArg List.sum (elements_congr fun r c h => by rw [hx r c h, hy r c h])

end Pattern

theorem MatrixBuilder.callOutput_eq {s : Routine} {o : Nat} {p : Pattern}
    (ho : s.outPatterns[o]? = some p) (arguments : List MatrixId) :
    callOutput s arguments o = intern (.call s arguments o) p := by
  rw [callOutput, Routine.outPattern, List.getD_eq_getElem?_getD, ho]
  rfl

/-! ### Reliable graphs -/

namespace MatrixGraph

variable {W : Type} {g h : MatrixGraph}

/-- The derivative functions that the graph was asked for, of routines that it embeds, have folded
their constants without an error. -/
def DerivedExact (g : MatrixGraph) (A : Algebra Id W) : Prop :=
  ∀ e r arguments o d, g.node? e = some (.call r arguments o) →
    r.forwardDerivative = .ok d ∨ r.reverseDerivative = .ok d → d.id ∈ g.derived → d.FoldsExact A

theorem DerivedExact.of_grows {A : Algebra Id W} (hh : h.DerivedExact A) (hgrow : g.Grows h) :
    g.DerivedExact A :=
  fun e r arguments o d hn hd hid =>
    hh e r arguments o d (hgrow.node? hn) hd (hgrow.derived.subset hid)

variable [CommRing V] {I : Interpretation V} {given given' : MatrixId → Option (List V)}

/-- The graph admits what is given, and what was folded in it and for it was folded exactly. -/
structure Reliable (g : MatrixGraph) (I : Interpretation V) (given : MatrixId → Option (List V)) :
    Prop where
  admits : g.Admits I.algebra given
  derived : g.DerivedExact I.algebra

theorem Reliable.of_grows (hh : h.Reliable I given) (hgrow : g.Grows h) : g.Reliable I given :=
  ⟨hh.admits.of_within hgrow.within, hh.derived.of_grows hgrow⟩

theorem reliable_of_grows (g h : MatrixGraph) (hgrow : g.Grows h) (hh : h.Reliable I given) :
    g.Reliable I given :=
  hh.of_grows hgrow

/-! ### Values and derivatives of arguments -/

variable {dx : MatrixId → Nat → V} {a e : MatrixId} {p q : Pattern} {arguments : List MatrixId}
  {r s : Routine} {d : FunctionObject} {o : Nat}

theorem tangentOf_congr_given (hgrow : g.Grows h)
    (hgiven : ∀ a : MatrixId, a.index < g.size → given' a = given a) (hp : g.pattern? e = some p) :
    h.tangentOf I given' dx e = g.tangentOf I given dx e := by
  funext r c
  rw [tangentOf, tangentOf, elementOf_congr_given hgrow (fun a ha => ?_) hp]
  rw [moving, moving, hgiven a ha]

theorem tangentOf_of_grows (hgrow : g.Grows h) (hp : g.pattern? e = some p) :
    h.tangentOf I given dx e = g.tangentOf I given dx e :=
  tangentOf_congr_given hgrow (fun _ _ => rfl) hp

theorem map_fst_evaluate (dx : MatrixId → Nat → V) (e : MatrixId) :
    (g.evaluate I.dualAlgebra (moving given dx) e).map TrivSqZeroExt.fst
      = g.evaluate I.algebra given e :=
  List.forall₂_eq_eq_eq ▸ List.forall₂_map_left_iff.mpr (forall₂_fst_evaluate dx e)

theorem map_snd_evaluate (hg : g.Sound I given) (hp : g.pattern? e = some p)
    (dx : MatrixId → Nat → V) :
    (g.evaluate I.dualAlgebra (moving given dx) e).map TrivSqZeroExt.snd
      = p.elements (g.tangentOf I given dx e) := by
  rw [(hg.stores hp dx).values (hg.admits.moving dx), Pattern.elements, List.map_map]
  rfl

/-- The arguments of a call as dual numbers, when given values move in a direction. -/
def movingArguments (g : MatrixGraph) (I : Interpretation V) (given : MatrixId → Option (List V))
    (dx : MatrixId → Nat → V) (arguments : List MatrixId) : Bundle (DualNumber V) :=
  arguments.map (g.evaluate I.dualAlgebra (moving given dx))

theorem map_fst_movingArguments (dx : MatrixId → Nat → V) (arguments : List MatrixId) :
    (g.movingArguments I given dx arguments).map (·.map TrivSqZeroExt.fst)
      = arguments.map (g.evaluate I.algebra given) := by
  rw [movingArguments, List.map_map]
  exact List.map_congr_left fun a _ => map_fst_evaluate dx a

theorem map_length_movingArguments (hg : g.Sound I given) (dx : MatrixId → Nat → V)
    (harguments : arguments.map g.pattern? = r.inPatterns.map some) :
    (g.movingArguments I given dx arguments).map List.length = r.inSizes :=
  hg.typed.map_length_evaluate (hg.admits.moving dx).fits harguments

/-- The value of a call over dual numbers. -/
theorem evaluate_dual_call (hg : g.Sound I given) (hn : g.node? e = some (.call r arguments o)) :
    g.evaluate I.dualAlgebra (moving given dx) e
      = (Id.run (r.tape.replay I.dualAlgebra (g.movingArguments I given dx arguments) []
        r.outSizes)).getD o [] := by
  rw [evaluate_of_node? ((hg.admits.moving dx).symbols e _ hn rfl) hn]
  rfl

theorem map_evaluate_of_grows {W : Type} {A : Algebra Id W} {given : MatrixId → Option (List W)}
    {es : List MatrixId} {ps : List Pattern} (hes : es.map g.pattern? = ps.map some)
    (hgrow : g.Grows h) : es.map (h.evaluate A given) = es.map (g.evaluate A given) := by
  refine List.map_congr_left fun e he => ?_
  obtain ⟨p, hp⟩ := MatrixTape.exists_pattern?_of_map hes he
  exact evaluate_of_grows hgrow (index_lt_of_pattern? hp)

/-- Over dual numbers that do not move, and over the ring, values are the same. -/
theorem related_still (I : Interpretation V) :
    Algebra.Related (fun (x : DualNumber V) v => x.fst = v ∧ x.snd = 0) I.dualAlgebra I.algebra where
  constant _ := ⟨rfl, rfl⟩
  unary op {x _} hx := by
    refine ⟨(related_fst I).unary op hx.1, (I.snd_dual_unary op x).trans ?_⟩
    rw [hx.2, mul_zero]
  binary op {x x' _ _} hx hy := by
    refine ⟨(related_fst I).binary op hx.1 hy.1, (I.snd_dual_binary op x x').trans ?_⟩
    rw [hx.2, hy.2, mul_zero, mul_zero, add_zero]

/-- A call of arguments that do not move does not move. -/
theorem tangentOf_call_of_still (hg : g.Sound I given) (hn : g.node? e = some (.call r arguments o))
    (harguments : arguments.map g.pattern? = r.inPatterns.map some)
    (hstill : ∀ a ∈ arguments, g.tangentOf I given dx a = 0) : g.tangentOf I given dx e = 0 := by
  have hmoving : List.Forall₂ (List.Forall₂ fun (x : DualNumber V) v => x.fst = v ∧ x.snd = 0)
      (g.movingArguments I given dx arguments) (arguments.map (g.evaluate I.algebra given)) := by
    refine forall₂_map_same arguments fun a ha => ?_
    obtain ⟨q, hq⟩ := MatrixTape.exists_pattern?_of_map harguments ha
    have hsnd := map_snd_evaluate hg hq dx
    rw [hstill a ha] at hsnd
    refine (forall₂_and_mem (forall₂_fst_evaluate dx a)).imp fun x v hxv => ⟨hxv.2, ?_⟩
    have hmem : x.snd ∈ q.elements (0 : Nat → Nat → V) := hsnd ▸ List.mem_map_of_mem hxv.1
    obtain ⟨_, -, hzero⟩ := List.mem_map.mp hmem
    exact hzero.symm
  have hrow := ScalarTape.related_replay (related_still I) r.tape (.of_forall₂ hmoving) r.outSizes
  funext i j
  rw [tangentOf, elementOf, evaluate_dual_call hg hn]
  cases (MatrixTape.patternIn g e).find? i j with
  | none => rfl
  | some k =>
    have hzero : (0 : DualNumber V).fst = (0 : V) ∧ (0 : DualNumber V).snd = 0 := ⟨rfl, rfl⟩
    exact (hrow.getD hzero o k).2

/-! ### Forward -/

/-- The expression tells how another one moves: it is on the same pattern and stores the derivatives. -/
def Tells (g : MatrixGraph) (I : Interpretation V) (given : MatrixId → Option (List V))
    (dx : MatrixId → Nat → V) (e t : MatrixId) : Prop :=
  ∃ p, g.pattern? e = some p ∧ g.Stores I.algebra given t p (g.tangentOf I given dx e)

theorem Tells.grow {t : MatrixId} (ht : g.Tells I given dx e t) (hgrow : g.Grows h) :
    h.Tells I given dx e t := by
  obtain ⟨p, hp, hstores⟩ := ht
  refine ⟨p, hgrow.pattern? hp, ?_⟩
  rw [tangentOf_of_grows hgrow hp]
  exact hstores.grow hgrow

theorem map_evaluate_of_tells (hg : g.Sound I given) {moved : List MatrixId}
    (hmoved : List.Forall₂ (g.Tells I given dx) arguments moved) :
    moved.map (g.evaluate I.algebra given)
      = (g.movingArguments I given dx arguments).map (·.map TrivSqZeroExt.snd) := by
  rw [movingArguments, List.map_map]
  refine (map_eq_map_of_forall₂ hmoved fun a _ t ht => ?_).symm
  obtain ⟨p, hp, hstores⟩ := ht
  exact (map_snd_evaluate hg hp dx).trans (hstores.values hg.admits).symm

/-- **Calls of forward derivatives**, with the arguments and with expressions that tell how these move,
store how an output moves. -/
theorem stores_forwardCall (hg : g.WellTyped) (hn : g.node? e = some (.call r arguments o))
    (hp : g.pattern? e = some p) (hd : r.forwardDerivative = .ok d) (hs : d.routine = .ok s)
    (hexact : d.FoldsExact I.algebra) {moved : List MatrixId}
    (hmoved : List.Forall₂ (g.Tells I given dx) arguments moved) :
    Keeps (callOutput s (arguments ++ moved) o) g
      fun t h => h.Stores I.algebra given t p (g.tangentOf I given dx e) := by
  obtain ⟨hin, hout⟩ := Routine.patterns_forwardDerivative hd hs
  cases hg.typed e _ p hn hp with
  | call harguments ho =>
    have hpatterns : moved.map g.pattern? = r.inPatterns.map some := by
      rw [← harguments]
      refine (map_eq_map_of_forall₂ hmoved fun a _ t ht => ?_).symm
      obtain ⟨q, hq, hstores⟩ := ht
      exact hq.trans hstores.pattern.symm
    have hall : (arguments ++ moved).map g.pattern? = s.inPatterns.map some := by
      rw [List.map_append, harguments, hpatterns, hin, List.map_append]
    rw [callOutput_eq (hout ▸ ho)]
    refine stores_intern (.call hall (hout ▸ ho)) rfl fun h hgrow hadm => ?_
    have hg : g.Sound I given := ⟨hg, hadm.of_within hgrow.within⟩
    have hvalues : (arguments ++ moved).map (h.evaluate I.algebra given)
        = (g.movingArguments I given dx arguments).map (·.map TrivSqZeroExt.fst)
          ++ (g.movingArguments I given dx arguments).map (·.map TrivSqZeroExt.snd) := by
      rw [map_evaluate_of_grows hall hgrow, List.map_append, map_fst_movingArguments,
        map_evaluate_of_tells hg hmoved]
    have hreplay := Routine.replay_forwardDerivative hd hs hexact
      (map_length_movingArguments hg dx harguments)
    rw [MatrixNode.apply, hvalues, hreplay, ← map_snd_evaluate hg hp dx, evaluate_dual_call hg hn]
    simp only [List.getD_eq_getElem?_getD, List.getElem?_map]
    cases (Id.run (r.tape.replay I.dualAlgebra (g.movingArguments I given dx arguments) []
      r.outSizes))[o]? <;> rfl

/-! ### Reverse -/

/-- Weights of the outputs of a routine: those of one output, and zeros for the others. -/
def weightValues (patterns : List Pattern) (o : Nat) (z : Nat → Nat → V) : Bundle V :=
  patterns.zipIdx.map fun (p, i) => p.elements (if i = o then z else 0)

/-- Expressions for the weights of the outputs of a routine. -/
def Weighs (g : MatrixGraph) (I : Interpretation V) (given : MatrixId → Option (List V)) (o : Nat)
    (z : Nat → Nat → V) (entry : Pattern × Nat) (w : MatrixId) : Prop :=
  g.Stores I.algebra given w entry.1 (if entry.2 = o then z else 0)

/-- What the reverse derivative `s` of a routine computes for argument `i`, as a matrix. -/
def reverseValues (g : MatrixGraph) (I : Interpretation V) (given : MatrixId → Option (List V))
    (r s : Routine) (arguments : List MatrixId) (o : Nat) (z : Nat → Nat → V) (i : Nat) :
    Nat → Nat → V :=
  (r.inPatterns.getD i (.empty 0 0)).placed
    ((Id.run (s.tape.replay I.algebra (arguments.map (g.evaluate I.algebra given)
      ++ weightValues r.outPatterns o z) [] s.outSizes)).getD i [])

theorem reverseValues_of_grows (hgrow : g.Grows h)
    (harguments : arguments.map g.pattern? = r.inPatterns.map some) (z : Nat → Nat → V) (i : Nat) :
    h.reverseValues I given r s arguments o z i = g.reverseValues I given r s arguments o z i := by
  rw [reverseValues, map_evaluate_of_grows harguments hgrow]
  rfl

theorem map_length_weightValues (patterns : List Pattern) (o : Nat) (z : Nat → Nat → V) :
    (weightValues patterns o z).map List.length = patterns.map Pattern.nnz := by
  rw [weightValues, List.map_map]
  conv_rhs => rw [← List.zipIdx_map_fst 0 patterns, List.map_map]
  exact List.map_congr_left fun _ _ => Pattern.length_elements

theorem length_reverseRow (hs : s.outPatterns = r.inPatterns) {i : Nat}
    (hi : r.inPatterns[i]? = some q) (values : Bundle V) :
    ((Id.run (s.tape.replay I.algebra values [] s.outSizes)).getD i []).length = q.nnz := by
  have hlength := congrArg (·[i]?) (s.tape.map_length_replay I.algebra values [] s.outSizes)
  simp only [List.getElem?_map, Routine.outSizes, hs, hi, Option.map_some] at hlength
  obtain ⟨row, hrow, hfits⟩ := Option.map_eq_some_iff.mp hlength
  rw [Routine.outSizes, hs, List.getD_eq_getElem?_getD, hrow]
  exact hfits

variable {z : Nat → Nat → V} {ws : List MatrixId}

theorem map_pattern?_of_weighs (hws : List.Forall₂ (g.Weighs I given o z) r.outPatterns.zipIdx ws) :
    ws.map g.pattern? = r.outPatterns.map some := by
  conv_rhs => rw [← List.zipIdx_map_fst 0 r.outPatterns, List.map_map]
  exact (map_eq_map_of_forall₂ hws fun _ _ _ hw => hw.pattern.symm).symm

theorem map_evaluate_of_weighs (hg : g.Admits I.algebra given)
    (hws : List.Forall₂ (g.Weighs I given o z) r.outPatterns.zipIdx ws) :
    ws.map (g.evaluate I.algebra given) = weightValues r.outPatterns o z :=
  (map_eq_map_of_forall₂ hws fun _ _ _ hw => (hw.values hg).symm).symm

/-- **Calls of reverse derivatives** store what these compute. -/
theorem stores_reverseCall
    (harguments : arguments.map g.pattern? = r.inPatterns.map some)
    (hd : r.reverseDerivative = .ok d) (hs : d.routine = .ok s)
    (hws : List.Forall₂ (g.Weighs I given o z) r.outPatterns.zipIdx ws) {i : Nat}
    (hi : r.inPatterns[i]? = some q) :
    Keeps (callOutput s (arguments ++ ws) i) g
      fun t h => h.Stores I.algebra given t q (g.reverseValues I given r s arguments o z i) := by
  obtain ⟨hin, hout⟩ := Routine.patterns_reverseDerivative hd hs
  have hall : (arguments ++ ws).map g.pattern? = s.inPatterns.map some := by
    rw [List.map_append, harguments, map_pattern?_of_weighs hws, hin, List.map_append]
  rw [callOutput_eq (hout ▸ hi)]
  refine stores_intern (.call hall (hout ▸ hi)) rfl fun h hgrow hadm => ?_
  have hvalues : (arguments ++ ws).map (h.evaluate I.algebra given)
      = arguments.map (g.evaluate I.algebra given) ++ weightValues r.outPatterns o z := by
    rw [map_evaluate_of_grows hall hgrow, List.map_append,
      map_evaluate_of_weighs (hadm.of_within hgrow.within) hws]
  rw [MatrixNode.apply, hvalues, reverseValues, getD_of_getElem? hi,
    Pattern.elements_placed (length_reverseRow hout hi _)]

/-- An output of a call, paired with weights, by the outputs of the routine. -/
theorem pairing_weightValues (hg : g.Sound I given) (hn : g.node? e = some (.call r arguments o))
    (hp : g.pattern? e = some p) (ho : r.outPatterns[o]? = some p) :
    Bundle.pairing r.outSizes (weightValues r.outPatterns o z)
        (Id.run (r.tape.replay I.dualAlgebra (g.movingArguments I given dx arguments) [] r.outSizes))
      = p.pairing z (g.tangentOf I given dx e) := by
  have hsnd := map_snd_evaluate hg hp dx
  rw [evaluate_dual_call hg hn] at hsnd
  have hlt : o < r.outPatterns.length := (List.getElem?_eq_some_iff.mp ho).1
  have hsizes : r.outSizes.getD o 0 = p.nnz := by
    rw [Routine.outSizes, List.getD_eq_getElem?_getD, List.getElem?_map, ho]
    rfl
  have hrow : ∀ {i q}, r.outPatterns[i]? = some q →
      (weightValues r.outPatterns o z).getD i [] = q.elements (if i = o then z else 0) := by
    intro i q hq
    refine getD_of_getElem? ?_ []
    rw [weightValues, List.getElem?_map, List.getElem?_zipIdx, hq, Option.map_some, Option.map_some,
      Nat.zero_add]
  rw [Bundle.pairing, Finset.sum_eq_single o, hsizes, hrow ho, if_pos rfl,
    Pattern.pairing_eq_sum_range]
  · refine Finset.sum_congr rfl fun k _ => ?_
    rw [← hsnd]
    simp only [List.getD_eq_getElem?_getD, List.getElem?_map]
    cases ((Id.run (r.tape.replay I.dualAlgebra (g.movingArguments I given dx arguments) []
      r.outSizes))[o]?.getD [])[k]? <;> rfl
  · intro i hi hne
    rw [Finset.mem_range, Routine.outSizes, List.length_map] at hi
    rw [hrow (List.getElem?_eq_getElem hi), if_neg hne]
    refine Finset.sum_eq_zero fun k _ => ?_
    simp only [List.getD_eq_getElem?_getD, Pattern.getElem?_elements]
    cases r.outPatterns[i].positions[k]? <;> exact zero_mul _
  · intro hnot
    rw [Finset.mem_range, Routine.outSizes, List.length_map] at hnot
    exact absurd hlt hnot

/-- **What reverse derivatives compute**, paired with how the arguments move, is the weighted output,
paired with how it moves. -/
theorem pairing_reverseValues (hg : g.Sound I given) (hn : g.node? e = some (.call r arguments o))
    (hp : g.pattern? e = some p) (hr : r.IsCompiled) (hd : r.reverseDerivative = .ok d)
    (hs : d.routine = .ok s) (hexact : d.FoldsExact I.algebra) :
    (arguments.zipIdx.map fun ai => (MatrixTape.patternIn g ai.1).pairing
        (g.reverseValues I given r s arguments o z ai.2) (g.tangentOf I given dx ai.1)).sum
      = p.pairing z (g.tangentOf I given dx e) := by
  obtain ⟨hin, hout⟩ := Routine.patterns_reverseDerivative hd hs
  cases hg.typed.typed e _ p hn hp with
  | call harguments ho =>
    have hreverse := Routine.pairing_reverseDerivative hr hd hs hexact
      (map_length_movingArguments hg dx harguments) (map_length_weightValues r.outPatterns o z)
    rw [map_fst_movingArguments, pairing_weightValues hg hn hp ho] at hreverse
    rw [← hreverse, Bundle.pairing, Pattern.sum_range_getD _ r.inSizes.length]
    · refine Finset.sum_congr rfl fun i hi => ?_
      rw [Finset.mem_range, Routine.inSizes, List.length_map] at hi
      have hq : r.inPatterns[i]? = some r.inPatterns[i] := List.getElem?_eq_getElem hi
      have hmap := congrArg (·[i]?) harguments
      simp only [List.getElem?_map, hq, Option.map_some] at hmap
      obtain ⟨a, ha, hpattern⟩ := Option.map_eq_some_iff.mp hmap
      have hsize : r.inSizes.getD i 0 = r.inPatterns[i].nnz :=
        getD_of_getElem? (by rw [Routine.inSizes, List.getElem?_map, hq]; rfl) 0
      have hmoving : (g.movingArguments I given dx arguments).getD i []
          = g.evaluate I.dualAlgebra (moving given dx) a :=
        getD_of_getElem? (by rw [movingArguments, List.getElem?_map, ha]; rfl) []
      rw [getD_of_getElem? (a := (MatrixTape.patternIn g a).pairing
          (g.reverseValues I given r s arguments o z i) (g.tangentOf I given dx a))
        (by rw [List.getElem?_map, List.getElem?_zipIdx, ha]; simp) 0,
        MatrixTape.patternIn, hpattern, Option.getD_some, Pattern.pairing_eq_sum_range, hsize, hmoving,
        reverseValues, getD_of_getElem? hq, Pattern.elements_placed (length_reverseRow hout hq _)]
      refine Finset.sum_congr rfl fun k _ => ?_
      rw [← map_snd_evaluate hg hpattern dx]
      simp only [List.getD_eq_getElem?_getD, List.getElem?_map]
      cases (g.evaluate I.dualAlgebra (moving given dx) a)[k]? <;> rfl
    · have hlength := congrArg List.length harguments
      simpa [Routine.inSizes] using hlength

end MatrixGraph

end Fluxion
