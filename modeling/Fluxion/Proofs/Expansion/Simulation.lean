import Fluxion.Proofs.Lists
import Fluxion.Proofs.Matrix.Compile
import Fluxion.Proofs.Matrix.Related
import Fluxion.Proofs.Scalar.Reading
import Fluxion.Proofs.Scalar.Runs

/-!
# Tapes over expressions

The same tape runs over expressions and over values. What an expression has to do with a value is said
by a relation that stays true when the graph grows and that every builder keeps. If the inputs of the
two runs are related, so are the outputs, whatever the relation is. Values of expressions are one
instance, and the symbols that expressions are made of another.

A run over expressions never fails on expressions that its graph has, so it is related to the run over
values from start to end, embedded routines included.

## Main definitions

* `ScalarBuilder.Simulates` — builders keep a relation between expressions and values
* `MatrixTape.Run.Related` — two runs hold related nonzeros

## Main results

* `ScalarTape.yields_replay` — **scalar tapes keep the relation**
* `MatrixOp.yields_run` — the nonzeros of one instruction are related
* `MatrixTape.yields_replay` — **matrix tapes keep the relation**
-/

namespace Fluxion

open ScalarBuilder

variable {V : Type} {A : Algebra Id V} {R : ScalarGraph → ScalarId → V → Prop} {g : ScalarGraph}

namespace ScalarBuilder

/-- A relation between expressions and values that stays true and that builders keep. -/
structure Simulates (R : ScalarGraph → ScalarId → V → Prop) (A : Algebra Id V) : Prop where
  grow : ∀ {g h : ScalarGraph} {e : ScalarId} {v : V}, g.Grows h → R g e v → R h e v
  constant : ∀ (g : ScalarGraph) (c : Binary64),
    Yields (literal c) g fun e h => R h e (A.constant c)
  unary : ∀ {g : ScalarGraph} {a : ScalarId} {x : V} (op : UnaryOp), R g a x →
    Yields (ScalarBuilder.unary op a) g fun e h => R h e (A.unary op x)
  binary : ∀ {g : ScalarGraph} {a b : ScalarId} {x y : V} (op : BinaryOp), R g a x → R g b y →
    Yields (ScalarBuilder.binary op a b) g fun e h => R h e (A.binary op x y)

variable {α β σ τ ι : Type}

/-- A loop keeps a relation between its state and that of a loop without effects over the same
items. -/
theorem Yields.foldlM_same {S : σ → τ → ScalarGraph → Prop} {f : σ → ι → ScalarBuilder σ}
    {p : τ → ι → τ} (items : List ι)
    (step : ∀ i ∈ items, ∀ s t h, g.Grows h → S s t h →
      Yields (f s i) h fun s' k => S s' (p t i) k) {s : σ} {t : τ} (hst : S s t g) :
    Yields (items.foldlM f s) g fun s' h => S s' (items.foldl p t) h := by
  induction items generalizing s t g with
  | nil => exact yields_pure hst
  | cons i rest ih =>
    rw [List.foldlM_cons, List.foldl_cons]
    refine (step i (by simp) s t g (.refl g) hst).bind fun s' h hgh hs' => ?_
    exact ih (fun j hj s t k hhk => step j (List.mem_cons_of_mem i hj) s t k (hgh.trans hhk)) hs'

theorem Yields.mapM_same {S : α → β → ScalarGraph → Prop} {f : ι → ScalarBuilder α} {p : ι → β}
    (hS : ∀ a b g h, g.Grows h → S a b g → S a b h) (items : List ι)
    (step : ∀ i ∈ items, ∀ h, g.Grows h → Yields (f i) h fun a k => S a (p i) k) :
    Yields (items.mapM f) g fun as h => List.Forall₂ (S · · h) as (items.map p) := by
  induction items generalizing g with
  | nil =>
    rw [List.mapM_nil]
    exact yields_pure .nil
  | cons i rest ih =>
    rw [List.mapM_cons]
    refine (step i (by simp) g (.refl g)).bind fun a h hgh ha => ?_
    refine (ih fun j hj k hhk => step j (List.mem_cons_of_mem i hj) k (hgh.trans hhk)).bind
      fun as k hhk has => ?_
    exact yields_pure (.cons (hS _ _ _ _ hhk ha) has)

end ScalarBuilder

/-! ### Scalar tapes -/

namespace ScalarTape

variable {zero : ScalarId} {zero' : V} {inputs : Grid ScalarId} {inputs' : Grid V}
  {free : Array ScalarId} {free' : Array V}

/-- One instruction keeps two runs in step. -/
theorem yields_exec (hR : Simulates R A)
    (hinputs : ∀ i k, R g (inputs.read zero i k) (inputs'.read zero' i k))
    (hfree : ∀ k, R g (free.getD k zero) (free'.getD k zero')) {r : Run ScalarId} {q : Run V}
    (hrq : Run.Related (R g) zero zero' r q) (instr : ScalarInstr) :
    Yields (exec scalarAlgebra zero inputs free r instr) g fun r' h =>
      Run.Related (R h) zero zero' r' (execute A zero' inputs' free' q instr) := by
  have hgrow : ∀ {h : ScalarGraph}, g.Grows h → Run.Related (R h) zero zero' r q :=
    fun hgh => hrq.imp fun _ _ => hR.grow hgh
  cases instr with
  | input i k result => exact yields_pure (hrq.write (hinputs i k) result)
  | free k result => exact yields_pure (hrq.write (hfree k) result)
  | output i k a => exact yields_pure (hrq.store (hrq.read a) i k)
  | constant c result =>
    exact (hR.constant g c).bind fun e h hgh he => yields_pure ((hgrow hgh).write he result)
  | unary op a result =>
    exact (hR.unary op (hrq.read a)).bind fun e h hgh he =>
      yields_pure ((hgrow hgh).write he result)
  | binary op a b result =>
    exact (hR.binary op (hrq.read a) (hrq.read b)).bind fun e h hgh he =>
      yields_pure ((hgrow hgh).write he result)

/-- **Scalar tapes keep the relation.** -/
theorem yields_replay (hR : Simulates R A) (tape : ScalarTape) {inputs : Bundle ScalarId}
    {values : Bundle V} (hinputs : Bundle.Related (R g) inputs values) {free : List ScalarId}
    {freeValues : List V} (hfree : List.Forall₂ (R g) free freeValues) (counts : List Nat) :
    Yields (tape.replay scalarAlgebra inputs free counts) g fun outputs h =>
      Bundle.Related (R h) outputs (Id.run (tape.replay A values freeValues counts)) := by
  rw [ScalarTape.replay_eq]
  refine (hR.constant g 0.0).bind fun zero h hgh hzero => ?_
  have hread : ∀ {k : ScalarGraph}, h.Grows k → ∀ i j,
      R k (Grid.read zero (.ofBundle inputs) i j)
        (Grid.read (A.constant 0.0) (.ofBundle values) i j) := fun hhk i j => by
    rw [Grid.read_ofBundle, Grid.read_ofBundle]
    exact (hinputs.imp fun _ _ => hR.grow (hgh.trans hhk)).getD (hR.grow hhk hzero) i j
  have hfreeRead : ∀ {k : ScalarGraph}, h.Grows k → ∀ j,
      R k (free.toArray.getD j zero) (freeValues.toArray.getD j (A.constant 0.0)) := fun hhk j => by
    rw [Pattern.getD_toArray, Pattern.getD_toArray]
    exact forall₂_getD (hfree.imp fun _ _ => hR.grow (hgh.trans hhk)) (hR.grow hhk hzero) j
  refine (Yields.foldlM_same (S := fun r q k => Run.Related (R k) zero (A.constant 0.0) r q)
    tape.instrs (fun instr _ r q k hhk hrq => yields_exec hR (hread hhk) (hfreeRead hhk) hrq instr)
    (.start hzero tape.workSize counts)).bind fun r k _ hrq => ?_
  exact yields_pure (.of_grids hrq.width hrq.stored)

end ScalarTape

/-! ### Matrix operations -/

namespace MatrixOp

variable {zero : ScalarId} {zero' : V} {x y : List ScalarId} {x' y' : List V}

theorem yields_addTerm (hR : Simulates R A) {sums : Array (Option ScalarId)}
    {sums' : Array (Option V)} (hsums : SumsRelated (R g) sums sums') (r : Nat) {term : ScalarId}
    {term' : V} (hterm : R g term term') :
    Yields (addTerm scalarAlgebra sums r term) g fun s h =>
      SumsRelated (R h) s (addTo A sums' r term') := by
  have hsum := hsums.getD r
  rw [addTerm, addTo]
  generalize sums.getD r none = s at hsum
  generalize sums'.getD r none = s' at hsum
  cases hsum with
  | none => exact yields_pure (hsums.set hterm r)
  | some hsum =>
    exact (hR.binary .add hsum hterm).bind fun e h hgh he =>
      yields_pure ((hsums.imp fun _ _ => hR.grow hgh).set he r)

theorem yields_runProduct (hR : Simulates R A) (hzero : R g zero zero')
    (left right result : Pattern) (hx : List.Forall₂ (R g) x x') (hy : List.Forall₂ (R g) y y') :
    Yields (runProduct scalarAlgebra zero left right result x y) g fun z h =>
      List.Forall₂ (R h) z (Id.run (runProduct A zero' left right result x' y')) := by
  rw [runProduct_eq]
  refine (Yields.foldlM_same (S := fun s s' k => SumsRelated (R k) s s')
    (productTerms left right result) (fun t _ s s' h hgh hs => ?_)
    (.replicate result.nnz)).bind fun s h hgh hs => yields_pure (hs.toValues (hR.grow hgh hzero))
  obtain ⟨p, q, r⟩ := t
  have hread : ∀ {z : List ScalarId} {z' : List V}, List.Forall₂ (R g) z z' → ∀ k,
      R h (z.toArray.getD k zero) (z'.getD k zero') := fun hz k => by
    rw [Pattern.getD_toArray]
    exact hR.grow hgh (forall₂_getD hz hzero k)
  refine (hR.binary .mul (hread hx p) (hread hy q)).bind fun term k hhk hterm => ?_
  exact yields_addTerm hR (hs.imp fun _ _ => hR.grow hhk) r hterm

theorem yields_runScatter (hR : Simulates R A) (hzero : R g zero zero') (map : ScatterMap)
    (result : Pattern) (hx : List.Forall₂ (R g) x x') :
    Yields (runScatter scalarAlgebra zero map result x) g fun z h =>
      List.Forall₂ (R h) z (Id.run (runScatter A zero' map result x')) := by
  rw [runScatter_eq]
  have hkept : ∀ (t : Option Nat × ScalarId) (t' : Option Nat × V) (g h : ScalarGraph), g.Grows h →
      t.1 = t'.1 ∧ R g t.2 t'.2 → t.1 = t'.1 ∧ R h t.2 t'.2 :=
    fun _ _ _ _ hgh ht => ⟨ht.1, hR.grow hgh ht.2⟩
  refine (Yields.foldlM (R := fun s s' k => SumsRelated (R k) s s') hkept
    (fun t t' s s' h ht hs => ?_) (forall₂_zip_same hx map)
    (.replicate result.nnz)).bind fun s h hgh hs => yields_pure (hs.toValues (hR.grow hgh hzero))
  obtain ⟨target, e⟩ := t
  obtain ⟨target', v⟩ := t'
  obtain ⟨rfl, hev⟩ := ht
  cases target with
  | none => exact yields_pure hs
  | some r => exact yields_addTerm hR hs r hev

theorem yields_runBinary (hR : Simulates R A) (hzero : R g zero zero') (op : BinaryOp)
    (result : Pattern) (hx : List.Forall₂ (R g) x x') (hy : List.Forall₂ (R g) y y') :
    Yields (runBinary scalarAlgebra zero op result x y) g fun z h =>
      List.Forall₂ (R h) z (Id.run (runBinary A zero' op result x' y')) := by
  rw [runBinary_eq]
  exact Yields.mapM_same (S := fun e v k => R k e v) (fun _ _ _ _ => hR.grow) _ fun k _ h hgh =>
    hR.binary op (hR.grow hgh (related_pick hzero hx k)) (hR.grow hgh (related_pick hzero hy k))

/-- **The nonzeros of one instruction are related** if those of its operands are. -/
theorem yields_run (hR : Simulates R A) (hzero : R g zero zero') {inputs : Bundle ScalarId}
    {values : Bundle V} (hinputs : List.Forall₂ (List.Forall₂ (R g)) inputs values)
    (result : Pattern) {operands : Bundle ScalarId} {operands' : Bundle V}
    (hoperands : List.Forall₂ (List.Forall₂ (R g)) operands operands') (op : MatrixOp) :
    Yields (op.run scalarAlgebra zero inputs result operands) g fun z h =>
      List.Forall₂ (R h) z (Id.run (op.run A zero' values result operands')) := by
  have hoperand : ∀ k, List.Forall₂ (R g) (operands.getD k []) (operands'.getD k []) :=
    forall₂_getD hoperands .nil
  cases op with
  | input i => exact yields_pure (forall₂_getD hinputs .nil i)
  | output i => exact yields_pure .nil
  | constant values =>
    refine (Yields.mapM_same (S := fun e v k => R k e v) (fun _ _ _ _ => hR.grow) values
      fun c _ h _ => hR.constant h c).imp fun z h _ _ hz => ?_
    exact List.idRun_mapM (f := A.constant) ▸ hz
  | free k => exact yields_pure (forall₂_replicate hzero result.nnz)
  | unary op =>
    refine (Yields.mapM (R := fun e v k => R k e v) (S := fun e v k => R k e v)
      (fun _ _ _ _ => hR.grow) (fun _ _ _ _ => hR.grow) (fun _ _ _ => hR.unary op)
      (hoperand 0)).imp fun z h _ _ hz => ?_
    exact List.idRun_mapM (f := A.unary op) ▸ hz
  | binary op => exact yields_runBinary hR hzero op result (hoperand 0) (hoperand 1)
  | product left right =>
    exact yields_runProduct hR hzero left right result (hoperand 0) (hoperand 1)
  | gather map => exact yields_pure (forall₂_runGather hzero map hoperands)
  | scatter map => exact yields_runScatter hR hzero map result (hoperand 0)
  | call r o =>
    refine (ScalarTape.yields_replay hR r.tape (.of_forall₂ hoperands) .nil r.outSizes).bind
      fun outputs h _ houtputs => yields_pure (forall₂_of_rel (houtputs o))
  | lift => exact yields_pure (hoperand 0)

end MatrixOp

/-! ### Matrix tapes -/

namespace MatrixTape

/-- The runs have as many slots and outputs, and what they hold in the same place is related. -/
structure Run.Related {W : Type} (S : V → W → Prop) (r : Run V) (q : Run W) : Prop where
  slots : List.Forall₂ (List.Forall₂ S) r.slots.toList q.slots.toList
  outputs : List.Forall₂ (List.Forall₂ S) r.outputs q.outputs

theorem Run.Related.imp {W : Type} {S T : V → W → Prop} {r : Run V} {q : Run W}
    (h : r.Related S q) (himp : ∀ v w, S v w → T v w) : r.Related T q :=
  ⟨h.slots.imp fun _ _ hrow => hrow.imp himp, h.outputs.imp fun _ _ hrow => hrow.imp himp⟩

namespace Run.Related

variable {W : Type} {S : V → W → Prop} {r : Run V} {q : Run W}

theorem start (workSize count : Nat) :
    Run.Related S ⟨Array.replicate workSize [], List.replicate count []⟩
      ⟨Array.replicate workSize [], List.replicate count []⟩ := by
  refine ⟨?_, forall₂_replicate .nil count⟩
  rw [Array.toList_replicate, Array.toList_replicate]
  exact forall₂_replicate .nil _

theorem operands (h : r.Related S q) (arguments : List Nat) :
    List.Forall₂ (List.Forall₂ S) (arguments.map (r.slots.getD · []))
      (arguments.map (q.slots.getD · [])) := by
  refine forall₂_map_same _ fun s _ => ?_
  have h := forall₂_getD h.slots .nil s
  rwa [← Pattern.getD_toArray, ← Pattern.getD_toArray, Array.toArray_toList,
    Array.toArray_toList] at h

theorem set (h : r.Related S q) {x : List V} {y : List W} (hxy : List.Forall₂ S x y) (slot : Nat) :
    Run.Related S ⟨r.slots.setIfInBounds slot x, r.outputs⟩
      ⟨q.slots.setIfInBounds slot y, q.outputs⟩ := by
  refine ⟨?_, h.outputs⟩
  rw [Array.toList_setIfInBounds, Array.toList_setIfInBounds]
  exact forall₂_set h.slots hxy slot

end Run.Related

/-- A run without effects is a loop. -/
theorem idRun_replay (tape : MatrixTape) (A : Algebra Id V) (values : Bundle V) (count : Nat) :
    Id.run (tape.replay A values count)
      = (tape.instrs.foldl (fun q instr => Id.run (exec A (A.constant 0.0) values q instr))
        ⟨Array.replicate tape.workSize [], List.replicate count []⟩).outputs :=
  congrArg Run.outputs (MatrixOp.foldlM_id (fun _ _ => rfl) _ _)

variable {zero : ScalarId} {zero' : V}

/-- One instruction keeps two runs in step. -/
theorem yields_exec (hR : Simulates R A) (hzero : R g zero zero') {inputs : Bundle ScalarId}
    {values : Bundle V} (hinputs : List.Forall₂ (List.Forall₂ (R g)) inputs values)
    {r : Run ScalarId} {q : Run V} (hrq : r.Related (R g) q) (instr : MatrixInstr) :
    Yields (exec scalarAlgebra zero inputs r instr) g fun r' h =>
      r'.Related (R h) (Id.run (exec A zero' values q instr)) := by
  have hoperands : List.Forall₂ (List.Forall₂ (R g)) (instr.arguments.map (r.slots.getD · []))
      (instr.arguments.map (q.slots.getD · [])) := hrq.operands instr.arguments
  obtain ⟨op, arguments, result, p, e⟩ := instr
  have hstep : (∀ i, op ≠ .output i) →
      Yields (exec scalarAlgebra zero inputs r ⟨op, arguments, result, p, e⟩) g fun r' h =>
        r'.Related (R h) (Id.run (exec A zero' values q ⟨op, arguments, result, p, e⟩)) := by
    intro hop
    cases result with
    | none =>
      cases op with
      | output i => exact absurd rfl (hop i)
      | _ => exact yields_pure hrq
    | some slot =>
      have hexec : exec scalarAlgebra zero inputs r ⟨op, arguments, some slot, p, e⟩ = do
          let values ← op.run scalarAlgebra zero inputs p (arguments.map (r.slots.getD · []))
          return ⟨r.slots.setIfInBounds slot values, r.outputs⟩ := by
        cases op with
        | output i => exact absurd rfl (hop i)
        | _ => rfl
      rw [hexec, exec_of_ne_output hop]
      exact (MatrixOp.yields_run hR hzero hinputs p hoperands op).bind fun z h hgh hz =>
        yields_pure ((hrq.imp fun _ _ => hR.grow hgh).set hz slot)
  cases op with
  | output i => exact yields_pure ⟨hrq.slots, forall₂_set hrq.outputs (forall₂_getD hoperands .nil 0) i⟩
  | _ => exact hstep fun i h => by cases h

/-- **Matrix tapes keep the relation.** -/
theorem yields_replay (hR : Simulates R A) (tape : MatrixTape) {inputs : Bundle ScalarId}
    {values : Bundle V} (hinputs : List.Forall₂ (List.Forall₂ (R g)) inputs values) (count : Nat) :
    Yields (tape.replay scalarAlgebra inputs count) g fun outputs h =>
      List.Forall₂ (List.Forall₂ (R h)) outputs (Id.run (tape.replay A values count)) := by
  refine (hR.constant g 0.0).bind fun zero h hgh hzero => ?_
  have hrun := Yields.foldlM_same (S := fun r q k => Run.Related (R k) r q)
    (p := fun q instr => Id.run (exec A (A.constant 0.0) values q instr)) tape.instrs
    (fun instr _ r q k hhk hrq => yields_exec hR (hR.grow hhk hzero)
      (hinputs.imp fun _ _ hrow => hrow.imp fun _ _ => hR.grow (hgh.trans hhk)) hrq instr)
    (.start tape.workSize count)
  refine hrun.bind fun r k _ hrq => yields_pure ?_
  rw [idRun_replay]
  exact hrq.outputs

end MatrixTape

end Fluxion
