import Fluxion.Proofs.Expansion.Simulation
import Fluxion.Proofs.Scalar.Watched

/-!
# Watched runs of matrix tapes

A watched run of a matrix tape meets every operation that the run performs: those on the nonzeros of its
own instructions, the sums and products of matrix products and scatters, and those of embedded routines.
As long as the law holds wherever it is asked for, the run keeps step with a run without effects.

## Main results

* `MatrixOp.ensures_run` — one instruction
* `MatrixTape.ensures_replay` — **a run keeps step while the law holds**
-/

namespace Fluxion

open Watched

variable {V W : Type} {A : Algebra Watched V} {B : Algebra Id W} {R : V → W → Prop} {zero : V}
  {zero' : W}

/-! ### Matrix operations -/

namespace MatrixOp

variable {x y : List V} {x' y' : List W}

theorem ensures_addTerm (hR : Follows R A B) {sums : Array (Option V)} {sums' : Array (Option W)}
    (hsums : SumsRelated R sums sums') (r : Nat) {term : V} {term' : W} (hterm : R term term') :
    (addTerm A sums r term).Ensures fun s => SumsRelated R s (addTo B sums' r term') := by
  have hsum := hsums.getD r
  rw [addTerm, addTo]
  generalize sums.getD r none = s at hsum
  generalize sums'.getD r none = s' at hsum
  cases hsum with
  | none => exact ensures_pure (hsums.set hterm r)
  | some hsum => exact (hR.binary .add hsum hterm).bind fun s hs => ensures_pure (hsums.set hs r)

theorem ensures_runProduct (hR : Follows R A B) (hzero : R zero zero') (left right result : Pattern)
    (hx : List.Forall₂ R x x') (hy : List.Forall₂ R y y') :
    (runProduct A zero left right result x y).Ensures fun z =>
      List.Forall₂ R z (Id.run (runProduct B zero' left right result x' y')) := by
  rw [runProduct_eq]
  have hread : ∀ {z : List V} {z' : List W}, List.Forall₂ R z z' → ∀ k,
      R (z.toArray.getD k zero) (z'.getD k zero') := fun hz k => by
    rw [Pattern.getD_toArray]
    exact forall₂_getD hz hzero k
  refine (Ensures.foldlM (E := Eq) (R := SumsRelated R) (fun s s' t t' hs ht => ?_)
    (List.forall₂_same.mpr fun _ _ => rfl) (.replicate result.nnz)).bind
      fun s hs => ensures_pure (hs.toValues hzero)
  subst ht
  obtain ⟨p, q, r⟩ := t
  exact (hR.binary .mul (hread hx p) (hread hy q)).bind fun term hterm =>
    ensures_addTerm hR hs r hterm

theorem ensures_runScatter (hR : Follows R A B) (hzero : R zero zero') (map : ScatterMap)
    (result : Pattern) (hx : List.Forall₂ R x x') :
    (runScatter A zero map result x).Ensures fun z =>
      List.Forall₂ R z (Id.run (runScatter B zero' map result x')) := by
  rw [runScatter_eq]
  refine (Ensures.foldlM (R := SumsRelated R) (fun s s' t t' hs ht => ?_)
    (forall₂_zip_same hx map) (.replicate result.nnz)).bind fun s hs =>
      ensures_pure (hs.toValues hzero)
  obtain ⟨target, v⟩ := t
  obtain ⟨target', w⟩ := t'
  obtain ⟨rfl, hvw⟩ := ht
  cases target with
  | none => exact ensures_pure hs
  | some r => exact ensures_addTerm hR hs r hvw

theorem ensures_runBinary (hR : Follows R A B) (hzero : R zero zero') (op : BinaryOp)
    (result : Pattern) (hx : List.Forall₂ R x x') (hy : List.Forall₂ R y y') :
    (runBinary A zero op result x y).Ensures fun z =>
      List.Forall₂ R z (Id.run (runBinary B zero' op result x' y')) := by
  rw [runBinary_eq]
  exact Ensures.mapM (E := Eq) (fun k _ hk =>
    hk ▸ hR.binary op (related_pick hzero hx k) (related_pick hzero hy k))
    (List.forall₂_same.mpr fun _ _ => rfl)

/-- **The nonzeros of one instruction are related** if those of its operands are and the law holds. -/
theorem ensures_run (hR : Follows R A B) (hzero : R zero zero') {inputs : Bundle V}
    {inputs' : Bundle W} (hinputs : List.Forall₂ (List.Forall₂ R) inputs inputs') (result : Pattern)
    {operands : Bundle V} {operands' : Bundle W}
    (hoperands : List.Forall₂ (List.Forall₂ R) operands operands') (op : MatrixOp) :
    (op.run A zero inputs result operands).Ensures fun z =>
      List.Forall₂ R z (Id.run (op.run B zero' inputs' result operands')) := by
  have hoperand : ∀ k, List.Forall₂ R (operands.getD k []) (operands'.getD k []) :=
    forall₂_getD hoperands .nil
  cases op with
  | input i => exact ensures_pure (forall₂_getD hinputs .nil i)
  | output i => exact ensures_pure .nil
  | constant values =>
    refine (Ensures.mapM (E := Eq) (R := R) (p := B.constant) (fun c _ hc => hc ▸ hR.constant c)
      (List.forall₂_same.mpr fun _ _ => rfl)).imp fun z hz => ?_
    exact List.idRun_mapM (f := B.constant) ▸ hz
  | free k => exact ensures_pure (forall₂_replicate hzero result.nnz)
  | unary op =>
    refine (Ensures.mapM (E := R) (R := R) (p := B.unary op) (fun _ _ => hR.unary op)
      (hoperand 0)).imp fun z hz => ?_
    exact List.idRun_mapM (f := B.unary op) ▸ hz
  | binary op => exact ensures_runBinary hR hzero op result (hoperand 0) (hoperand 1)
  | product left right =>
    exact ensures_runProduct hR hzero left right result (hoperand 0) (hoperand 1)
  | gather map => exact ensures_pure (forall₂_runGather hzero map hoperands)
  | scatter map => exact ensures_runScatter hR hzero map result (hoperand 0)
  | call r o =>
    exact (ScalarTape.ensures_replay hR r.tape (.of_forall₂ hoperands) .nil r.outSizes).bind
      fun outputs houtputs => ensures_pure (forall₂_of_rel (houtputs o))
  | lift => exact ensures_pure (hoperand 0)

end MatrixOp

/-! ### Matrix tapes -/

namespace MatrixTape

/-- One instruction keeps two runs in step while the law holds. -/
theorem ensures_exec (hR : Follows R A B) (hzero : R zero zero') {inputs : Bundle V}
    {inputs' : Bundle W} (hinputs : List.Forall₂ (List.Forall₂ R) inputs inputs') {r : Run V}
    {q : Run W} (hrq : r.Related R q) (instr : MatrixInstr) :
    (exec A zero inputs r instr).Ensures fun r' =>
      r'.Related R (Id.run (exec B zero' inputs' q instr)) := by
  have hoperands : List.Forall₂ (List.Forall₂ R) (instr.arguments.map (r.slots.getD · []))
      (instr.arguments.map (q.slots.getD · [])) := hrq.operands instr.arguments
  obtain ⟨op, arguments, result, p, e⟩ := instr
  have hstep : (∀ i, op ≠ .output i) →
      (exec A zero inputs r ⟨op, arguments, result, p, e⟩).Ensures fun r' =>
        r'.Related R (Id.run (exec B zero' inputs' q ⟨op, arguments, result, p, e⟩)) := by
    intro hop
    cases result with
    | none =>
      cases op with
      | output i => exact absurd rfl (hop i)
      | _ => exact ensures_pure hrq
    | some slot =>
      have hexec : exec A zero inputs r ⟨op, arguments, some slot, p, e⟩ = do
          let values ← op.run A zero inputs p (arguments.map (r.slots.getD · []))
          return ⟨r.slots.setIfInBounds slot values, r.outputs⟩ := by
        cases op with
        | output i => exact absurd rfl (hop i)
        | _ => rfl
      rw [hexec, exec_of_ne_output hop]
      exact (MatrixOp.ensures_run hR hzero hinputs p hoperands op).bind fun z hz =>
        ensures_pure (hrq.set hz slot)
  cases op with
  | output i =>
    exact ensures_pure ⟨hrq.slots, forall₂_set hrq.outputs (forall₂_getD hoperands .nil 0) i⟩
  | _ => exact hstep fun i h => by cases h

/-- **A run keeps step while the law holds**, through embedded routines as well. -/
theorem ensures_replay (hR : Follows R A B) (tape : MatrixTape) {inputs : Bundle V}
    {inputs' : Bundle W} (hinputs : List.Forall₂ (List.Forall₂ R) inputs inputs') (count : Nat) :
    (tape.replay A inputs count).Ensures fun outputs =>
      List.Forall₂ (List.Forall₂ R) outputs (Id.run (tape.replay B inputs' count)) := by
  refine (hR.constant 0.0).bind fun zero hzero => ?_
  refine (Ensures.foldlM (E := Eq) (R := fun r q => Run.Related R r q)
    (p := fun q instr => Id.run (exec B (B.constant 0.0) inputs' q instr))
    (fun r q instr instr' hrq (heq : instr = instr') =>
      heq ▸ ensures_exec hR hzero hinputs hrq instr)
    (List.forall₂_same.mpr fun _ _ => rfl) (.start tape.workSize count)).bind
      fun r hrq => ensures_pure ?_
  rw [idRun_replay]
  exact hrq.outputs

end MatrixTape

end Fluxion
