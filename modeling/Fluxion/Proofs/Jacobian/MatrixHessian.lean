import Fluxion.Proofs.Jacobian.Expansion
import Fluxion.Proofs.Matrix.Watched

/-!
# Hessians commute with expansion

The gradient of a matrix function is a sweep that has been simplified by its graph, and its Jacobian is
assembled from further sweeps, each of which shows several columns at once because the matrix is promised
to be symmetric. The Hessian of the expansion is made in the same way over single nonzeros, with a
coloring of its own. Both show second derivatives, and these are found by computing over dual numbers of
dual numbers, where two directions are carried at once.

Second derivatives of a matrix tape are those of its expansion, since the expansion keeps partial
derivatives over every ring, so over dual numbers. They do not depend on the order of the directions
wherever the powers that the tape computes obey their law: the run over dual numbers of dual numbers
respects the exchange of the directions as far as a watched run finds the law to hold. So the promise is
kept on both sides.

## Main definitions

* `MatrixTape.mixed` — second derivatives
* `MatrixFunction.Lawful` — the powers that a function computes obey their law
* `MatrixFunction.SameHessian` — two Hessians evaluate to the same matrix

## Main results

* `MatrixFunction.Ready.mixed_comm` — second derivatives do not depend on the order
* `MatrixFunction.shows_hess` — **Hessians show second derivatives**
* `LinkedHistory.sameHessian` — **Hessians commute with expansion**
-/

namespace Fluxion

open MatrixBuilder MatrixGraph

variable {V : Type} [CommRing V] {I : Interpretation V}

/-! ### Two directions -/

/-- Values that move along one nonzero, in the ring of values that move along another. -/
def movedTwice (values : Bundle V) (i k j : Nat) : Bundle (DualNumber (DualNumber V)) :=
  movedValues (movedValues values (unitAt V i j)) (unitAt (DualNumber V) i k)

theorem map_zipIdx_map_zipIdx {α β γ : Type} (l : List α) (f : α × Nat → β) (h : β × Nat → γ) :
    (l.zipIdx.map f).zipIdx.map h = l.zipIdx.map fun v => h (f v, v.2) := by
  refine List.ext_getElem? fun n => ?_
  simp only [List.getElem?_map, List.getElem?_zipIdx]
  cases l[n]? <;> rfl

theorem movedTwice_eq (values : Bundle V) (i k j : Nat) :
    movedTwice values i k j = values.zipIdx.map fun row => row.1.zipIdx.map fun v =>
      dualOf (dualOf v.1 (unitAt V i j row.2 v.2)) (unitAt (DualNumber V) i k row.2 v.2) := by
  rw [movedTwice, movedValues, movedValues, map_zipIdx_map_zipIdx]
  exact List.map_congr_left fun row _ => map_zipIdx_map_zipIdx ..

/-- Exchanging the directions exchanges the nonzeros. -/
theorem map_exchange_movedTwice (values : Bundle V) (i k j : Nat) :
    (movedTwice values i k j).map (List.map exchange) = movedTwice values i j k := by
  have hunit : ∀ (v : V) (i' l : Nat),
      exchange (dualOf (dualOf v (unitAt V i j i' l)) (unitAt (DualNumber V) i k i' l))
        = dualOf (dualOf v (unitAt V i k i' l)) (unitAt (DualNumber V) i j i' l) := by
    intro v i' l
    rw [unitAt, unitAt, unitAt, unitAt]
    split <;> split <;> rfl
  rw [movedTwice_eq, movedTwice_eq, List.map_map]
  refine List.map_congr_left fun row _ => ?_
  rw [Function.comp_apply, List.map_map]
  exact List.map_congr_left fun v _ => hunit v.1 row.2 v.2

/-- The values are still there. -/
theorem forall₂_exchanged_movedTwice (values : Bundle V) (i k j : Nat) :
    List.Forall₂ (List.Forall₂ Interpretation.Exchanged) values
      ((movedTwice values i k j).map (List.map fun z => (z, exchange z))) := by
  rw [movedTwice_eq, List.map_map]
  nth_rewrite 1 [← List.zipIdx_map_fst 0 values]
  refine forall₂_map_same _ fun row _ => ?_
  rw [Function.comp_apply, List.map_map]
  nth_rewrite 1 [← List.zipIdx_map_fst 0 row.1]
  exact forall₂_map_same _ fun v _ => ⟨rfl, rfl⟩

namespace MatrixTape

/-- The second derivative of all `n` nonzeros of output `o` together in nonzeros `k` and `j` of input
`i`. -/
def mixed (tape : MatrixTape) (I : Interpretation V) (values : Bundle V) (count n i o k j : Nat) : V :=
  seeded n (List.range n) fun l =>
    (((Id.run (tape.replay I.secondAlgebra (movedTwice values i k j) count)).getD o []).getD l 0
      ).snd.snd

/-- It is how the partial derivatives in `k` move along `j`. -/
theorem mixed_eq (tape : MatrixTape) (I : Interpretation V) (values : Bundle V)
    (count n i o k j : Nat) : tape.mixed I values count n i o k j = seeded n (List.range n) fun l =>
      (tape.partials I.dual (movedValues values (unitAt V i j)) count i o l k).snd := by
  refine congrArg (seeded n (List.range n)) (funext fun l => ?_)
  exact (congrArg TrivSqZeroExt.snd
    (List.getD_map _ (0 : DualNumber (DualNumber V)) TrivSqZeroExt.snd)).symm

end MatrixTape

namespace MatrixFunction

variable {f : MatrixFunction} {g h : MatrixGraph} {tape : MatrixTape} {values : Bundle V}
  {i o k j : Nat} {e : MatrixId} {p : Pattern}

/-- Wherever the function computes a power, in a routine that it embeds as well, its exponent can be
lowered. -/
def Lawful (f : MatrixFunction) (tape : MatrixTape) (I : Interpretation V) (values : Bundle V) :
    Prop :=
  (tape.replay I.watching values f.outCount).lawful

/-- One expression over two algebras side by side. -/
theorem forall₂_evaluate_pair {W W' X : Type} {A : Algebra Id W} {B : Algebra Id W'}
    {C : Algebra Id X} {φ : W × W' → X} (hφ : (A.pair B).Related (fun z x => φ z = x) C)
    (inputs : List MatrixId) (ζ : Bundle (W × W')) (e : MatrixId) :
    List.Forall₂ (fun z x => φ z = x) (g.evaluate (A.pair B) (MatrixTape.supply inputs ζ) e)
      (g.evaluate C (MatrixTape.supply inputs (ζ.map (List.map φ))) e) := by
  refine g.related_evaluate hφ (fun x => ?_) e
  rw [MatrixTape.supply, MatrixTape.supply]
  cases inputs.idxOf? x with
  | none => exact .none
  | some n =>
    have hmap : List.Forall₂ (List.Forall₂ fun z x => φ z = x) ζ (ζ.map (List.map φ)) :=
      List.forall₂_map_right_iff.mpr (List.forall₂_same.mpr fun row _ =>
        List.forall₂_map_right_iff.mpr (List.forall₂_same.mpr fun _ _ => rfl))
    exact .some (forall₂_getD hmap .nil n)

/-- **Nonzeros respect the exchange of two directions**, if all powers of the tape obey their law. -/
theorem Ready.exchange_replay (hf : f.Ready g) (htape : f.tape? = some tape)
    (hdiv : I.DividesByInverse) (hlawful : f.Lawful tape I values) (ho : f.outputs[o]? = some e)
    (i k j l : Nat) :
    ((Id.run (tape.replay I.secondAlgebra (movedTwice values i j k) f.outCount)).getD o []).getD l 0
      = exchange (((Id.run (tape.replay I.secondAlgebra (movedTwice values i k j) f.outCount)).getD o
          []).getD l 0) := by
  let B := I.secondAlgebra
  let ζ := (movedTwice values i k j).map (List.map fun z => (z, exchange z))
  have hleft : (B.pair B).Related (fun z x => z.1 = x) B :=
    ⟨fun _ => rfl, fun op _ _ h => congrArg (B.unary op) h, fun op _ _ _ _ h h' =>
      congrArg₂ (B.binary op) h h'⟩
  have hright : (B.pair B).Related (fun z x => z.2 = x) B :=
    ⟨fun _ => rfl, fun op _ _ h => congrArg (B.unary op) h, fun op _ _ _ _ h h' =>
      congrArg₂ (B.binary op) h h'⟩
  have hfst : ζ.map (List.map Prod.fst) = movedTwice values i k j := by
    simp [ζ, Function.comp_def]
  have hsnd : ζ.map (List.map Prod.snd) = movedTwice values i j k := by
    rw [← map_exchange_movedTwice]
    simp [ζ, Function.comp_def]
  have hpair := forall₂_getD (MatrixTape.ensures_replay (Interpretation.follows_exchange hdiv) tape
    (forall₂_exchanged_movedTwice values i k j) f.outCount hlawful) .nil o
  have hexchanged := forall₂_getD hpair
    (⟨rfl, rfl⟩ : Interpretation.Exchanged (0 : V) ((0, 0) : DualNumber (DualNumber V) × _)) l
  rw [hf.replay_getD htape ho] at hexchanged ⊢
  rw [hf.replay_getD htape ho, ← hfst, ← hsnd]
  have h₁ := forall₂_getD (forall₂_evaluate_pair (g := g) hleft f.inputs ζ e)
    (rfl : ((0, 0) : DualNumber (DualNumber V) × DualNumber (DualNumber V)).1 = 0) l
  have h₂ := forall₂_getD (forall₂_evaluate_pair (g := g) hright f.inputs ζ e)
    (rfl : ((0, 0) : DualNumber (DualNumber V) × DualNumber (DualNumber V)).2 = 0) l
  rw [← h₁, ← h₂]
  exact hexchanged.2

/-- **Second derivatives do not depend on the order** of the directions. -/
theorem Ready.mixed_comm (hf : f.Ready g) (htape : f.tape? = some tape) (hdiv : I.DividesByInverse)
    (hlawful : f.Lawful tape I values) (ho : o < f.outCount) (n i k j : Nat) :
    tape.mixed I values f.outCount n i o k j = tape.mixed I values f.outCount n i o j k := by
  refine congrArg (seeded n (List.range n)) (funext fun l => ?_)
  rw [hf.exchange_replay htape hdiv hlawful (List.getElem?_eq_getElem ho) i k j l]
  rfl

/-! ### Reliable graphs over dual numbers -/

/-- Reliable graphs stay so when the inputs move. -/
theorem reliable_moved {inputs : List MatrixId} (hg : g.Reliable I (MatrixTape.supply inputs values))
    (dx : Nat → Nat → V) :
    g.Reliable I.dual (MatrixTape.supply inputs (movedValues values dx)) where
  admits := supply_movedValues inputs values dx ▸ hg.admits.moving _
  derived e r arguments o d hn hd hid home hhome :=
    exact_dual (hg.derived e r arguments o d hn hd hid home hhome)

/-! ### Gradients -/

/-- The derivative of all nonzeros of output `o` together in nonzero `k` of input `i`. -/
def gradient (f : MatrixFunction) (tape : MatrixTape) (I : Interpretation V) (values : Bundle V)
    (i o k : Nat) : V :=
  seeded (f.outPattern o).nnz (List.range (f.outPattern o).nnz) fun l =>
    tape.partials I values f.outCount i o l k

/-- Where free symbols are zero, gradients store the partial derivatives of the tape. -/
theorem stores_grad (I : Interpretation V) (values : Bundle V)
    (hf : f.livesIn g = true → f.Ready g) (hcompiled : g.RoutinesCompiled)
    (htape : f.tape? = some tape) (i o : Nat) :
    Keeps (f.grad i o) g fun e h =>
      (i < f.inCount ∧ o < f.outCount ∧ (f.outPattern o).shape = (1, 1)) ∧ f.Ready h ∧
      On (f.inPattern i) e h ∧ (h.Reliable I (MatrixTape.supply f.inputs values) →
        h.Stores I.algebra (MatrixTape.supply f.inputs values) e (f.inPattern i)
          ((f.inPattern i).numbered (f.gradient tape I values i o))) := by
  refine keeps_of_wellTyped fun hg => ?_
  refine (stores_grad_slope I hf hcompiled htape (exists_supply values) i o).imp fun e h hgh he => ?_
  obtain ⟨hshape, hlives, hon, hstored⟩ := he
  have hready := hf hlives
  refine ⟨hshape, hready.grow hgh, hon, fun hr => ?_⟩
  have hstored := hstored hr
  rw [hready.slope_supply htape ⟨hg, (hr.of_grows hgh).admits⟩] at hstored
  exact hstored

/-! ### The gradient as a function -/

section Made

variable {F : MatrixFunction} {t : MatrixTape} {w : Nat → DualNumber V}

/-- A function of the same inputs remembers the same patterns for them. -/
theorem Made.inPatterns_eq {outputs : List MatrixId} (hF : F.Made g f.inputs outputs)
    (hf : f.Ready g) : F.inPatterns = f.inPatterns := by
  have hpatterns := hF.ready.inPatterns
  rw [hF.inputs_eq, hf.inPatterns] at hpatterns
  exact (List.map_injective_iff.mpr (Option.some_injective _) hpatterns).symm

theorem Made.outPattern_eq {inputs : List MatrixId} (hF : F.Made g inputs [e]) (he : On p e g) :
    F.outPattern 0 = p := by
  have hpattern := hF.ready.pattern?_output (o := 0) (by rw [hF.outputs_eq]; rfl)
  exact Option.some.inj (hpattern.symm.trans he)

/-- What a function of one output has for partial derivatives is read off what the output stores when
one nonzero moves. -/
theorem Made.partials_eq (hF : F.Made g f.inputs [e]) (ht : F.tape? = some t)
    (hg : g.Reliable I (MatrixTape.supply f.inputs values))
    (he : g.Stores I.dual.algebra (MatrixTape.supply f.inputs (movedValues values (unitAt V i j))) e p
      (p.numbered w)) (hk : k < p.nnz) :
    t.partials I values F.outCount i 0 k j = (w k).snd := by
  have hevaluate := he.values (reliable_moved hg _).admits
  rw [Pattern.elements_numbered] at hevaluate
  rw [MatrixTape.partials, MatrixTape.tangents, hF.ready.replay_getD ht (by rw [hF.outputs_eq]; rfl),
    hF.inputs_eq, hevaluate]
  simp [List.getD_eq_getElem?_getD, hk]

end Made

theorem Ready.partials_comm (hf : f.Ready g) (htape : f.tape? = some tape)
    (hg : g.Sound I (MatrixTape.supply f.inputs values)) (hi : i < f.inCount) (ho : o < f.outCount)
    {n : Nat} (hrows : (f.outPattern o).nnz = n) (hcols : (f.inPattern i).nnz = n)
    (hcomm : ∀ k < n, ∀ j < n,
      tape.partials I values f.outCount i o k j = tape.partials I values f.outCount i o j k)
    (k j : Nat) :
    tape.partials I values f.outCount i o k j = tape.partials I values f.outCount i o j k := by
  rw [← hf.slope_supply htape hg] at hcomm ⊢
  exact hf.slope_comm htape hg (exists_supply values) hi ho hrows hcols hcomm k j

/-! ### Hessians -/

/-- **Hessians show second derivatives**, if what was folded is exact and the powers of the function obey
their law. -/
theorem shows_hess (I : Interpretation V) (values : Bundle V) (hf : f.livesIn g = true → f.Ready g)
    (hcompiled : g.RoutinesCompiled) (htape : f.tape? = some tape) (i o : Nat) :
    Keeps (f.hess i o) g fun e h => (i < f.inCount ∧ o < f.outCount ∧
      (f.outPattern o).shape = (1, 1) ∧ (f.inPattern i).numel + 1 < tableLimit) ∧
      (I.DividesByInverse → f.Lawful tape I values →
        h.Reliable I (MatrixTape.supply f.inputs values) →
        ScalarFunction.Shows (tape.mixed I values f.outCount (f.outPattern o).nnz i o)
          (f.inPattern i) (f.inPattern i) false
          (h.elementOf I.algebra (MatrixTape.supply f.inputs values) e)) := by
  have hgrad := keeps_forall fun j =>
    stores_grad I.dual (movedValues values (unitAt V i j)) hf hcompiled htape i o
  refine ((f.keepsCompiled_grad i o).keeps hcompiled hgrad).bind fun e h hgh he => ?_
  refine ((f.keepsCompiled_withOutput e "grad_").keeps he.1 (keeps_withOutput f e "grad_")).bind
    fun F k hhk hF => keeps_of_wellTyped fun hk => ?_
  obtain ⟨hcompiled, hF⟩ := hF
  obtain ⟨t, ht, -⟩ := hF.compiled
  obtain ⟨⟨hi, ho, hshape⟩, hready, hon, -⟩ := he.2 0
  have hready := hready.grow hhk
  have hins := hF.inPatterns_eq hready
  have hin : F.inPattern i = f.inPattern i := by rw [inPattern, hins, inPattern]
  have hout : F.outPattern 0 = f.inPattern i := hF.outPattern_eq (hhk.pattern? hon)
  have hsizes : F.inSizes = f.inSizes := by rw [inSizes, hins, inSizes]
  have hsize : Keeps (F.jac i 0 false true) k fun _ _ => (f.inPattern i).numel + 1 < tableLimit :=
    (shows_jac Interpretation.trivial [] i 0 false (fun _ => hF.ready) hcompiled ht
      fun _ _ _ _ _ => rfl).imp fun _ _ _ h =>
      hin ▸ (h.1.2.2.resolve_left Bool.false_ne_true).2
  refine (hsize.and ?_).imp fun a m _ ha => ⟨⟨hi, ho, hshape, ha.1⟩, ha.2⟩
  by_cases hlaw : I.DividesByInverse ∧ f.Lawful tape I values
  swap
  · exact hsize.imp fun _ _ _ _ hdiv hlawful => absurd ⟨hdiv, hlawful⟩ hlaw
  -- the gradient, computed while one nonzero moves, has second derivatives
  have hpartials : k.Reliable I (MatrixTape.supply f.inputs values) → ∀ n < (f.inPattern i).nnz,
      ∀ j, t.partials I values F.outCount i 0 n j
        = tape.mixed I values f.outCount (f.outPattern o).nnz i o n j := by
    intro hr n hn j
    have hstored := (he.2 j).2.2.2 (reliable_moved (hr.of_grows hhk) _)
    rw [hF.partials_eq ht hr (hstored.grow hhk) hn, gradient, ScalarFunction.snd_seeded,
      MatrixTape.mixed_eq]
  have hcomm : k.Reliable I (MatrixTape.supply F.inputs values) → ∀ n j,
      t.partials I values F.outCount i 0 n j = t.partials I values F.outCount i 0 j n := by
    intro hr
    refine hF.ready.partials_comm ht ⟨hk, hr.admits⟩
      (by rwa [inCount, hF.inputs_eq]) (by rw [outCount, hF.outputs_eq]; exact Nat.one_pos)
      (congrArg Pattern.nnz hout) (congrArg Pattern.nnz hin) fun n hn j hj => ?_
    rw [hF.inputs_eq] at hr
    rw [hpartials hr n hn, hpartials hr j hj, hready.mixed_comm htape hlaw.1 hlaw.2 ho]
  refine (shows_jac I values i 0 false (fun _ => hF.ready) hcompiled ht
    fun _ _ => hcomm).imp fun a m hkm ha _ _ hr => ?_
  rw [hF.inputs_eq, hout, hin] at ha
  have hshown := ha.2 hr
  exact ⟨fun n hn j hj => (hshown.place n hn j hj).trans (hpartials (hr.of_grows hkm) n hn j),
    hshown.other⟩

end MatrixFunction

/-! ### Hessians of scalar functions -/

namespace ScalarFunction

variable {f : ScalarFunction} {g : ScalarGraph} {e : Expressions} {tape : ScalarTape} {i o : Nat}

/-- **Hessians show second derivatives**, if these do not depend on the order of the directions. -/
theorem exists_hess (hr : f.Ready g e tape) (hg : g.Founded) (hi : i < f.inCount)
    (ho : o < f.outCount) (hshape : (f.outPattern o).shape = (1, 1))
    (hsize : (f.inPattern i).numel + 1 < tableLimit) :
    ∃ m h, f.hess i o g = .ok m h ∧ g.Grows h ∧
      ∀ {V : Type} [CommRing V] (I : Interpretation V) (ρ : ScalarId → V), I.Exact h →
        (∀ k j, e.mixed g I ρ i o k j = e.mixed g I ρ i o j k) →
        Shows (e.mixed g I ρ i o) (f.inPattern i) (f.inPattern i) false (h.entry I ρ m) := by
  obtain ⟨gradient, e', tape', h₁, hrun₁, hgrow₁, hr₁, hins, houts, hin, hout, hpartials⟩ :=
    exists_gradientFunction hr hg hi ho hshape
  have hcount : (f.inPattern i).numel < countLimit := (Nat.lt_of_succ_lt hsize).trans (by decide)
  obtain ⟨m, h, hrun, hgrow, hshows⟩ := exists_jac hr₁ (hg.grow hgrow₁) (hins ▸ hi)
    (houts ▸ Nat.one_pos) false true (.inr (by rw [hin, hout]; exact ⟨hcount, hsize⟩))
  refine ⟨m, h, ?_, hgrow₁.trans hgrow, fun I ρ hexact hcomm => ?_⟩
  · rw [hess_eq]
    simp only [bind, EStateM.bind, hrun₁, hrun]
  · have hmixed := hpartials I ρ (ScalarGraph.exact_of_grows hgrow hexact)
    have hshown := hshows I ρ hexact fun _ _ k j => by rw [hmixed, hmixed, hcomm]
    rw [hin, hout] at hshown
    exact ⟨fun k hk j hj => (hshown.place k hk j hj).trans (hmixed k j), hshown.other⟩

end ScalarFunction

namespace MatrixFunction

variable {f : MatrixFunction} {tape : MatrixTape} {inputs outputs : List (SparseMatrix ScalarId)}
  {t : ScalarTape} {k : ScalarFunction} {s : ScalarGraph} {values : Bundle V} {ρ : ScalarId → V}
  {i o : Nat}

/-- **Expansion keeps second derivatives.** -/
theorem Unrolled.mixed_eq (hk : f.Unrolled tape inputs outputs t k s) (hexact : I.Exact s)
    (hρ : (inputs.map fun m => m.values.map ρ) = values) {n j : Nat} (hn : n < (f.inPattern i).nnz)
    (hj : j < (f.inPattern i).nnz) :
    (ScalarFunction.Expressions.mk inputs outputs none).mixed s I ρ i o n j
      = tape.mixed I values f.outCount (f.outPattern o).nnz i o n j := by
  have hcount := hk.nnz_inPattern i
  rw [← ScalarFunction.snd_gradient (hcount ▸ hn) (hcount ▸ hj), ScalarFunction.Expressions.gradient,
    ScalarFunction.snd_seeded, ← hk.nnz_outPattern o, MatrixTape.mixed_eq, seeded, seeded]
  refine congrArg List.sum (List.map_congr_left fun l hl => congrArg TrivSqZeroExt.snd ?_)
  exact hk.partials_eq hexact.dual (hk.map_unit hρ hj)
    (List.mem_range.mp (List.mem_filter.mp hl).1) hn

/-- So those of the expansion do not depend on the order either. -/
theorem Unrolled.mixed_comm (hk : f.Unrolled tape inputs outputs t k s) (hexact : I.Exact s)
    (hρ : (inputs.map fun m => m.values.map ρ) = values) {g : MatrixGraph} (hf : f.Ready g)
    (htape : f.tape? = some tape) (hdiv : I.DividesByInverse) (hlawful : f.Lawful tape I values)
    (ho : o < f.outCount) (n j : Nat) :
    (ScalarFunction.Expressions.mk inputs outputs none).mixed s I ρ i o n j
      = (ScalarFunction.Expressions.mk inputs outputs none).mixed s I ρ i o j n := by
  by_cases hnj : n < (f.inPattern i).nnz ∧ j < (f.inPattern i).nnz
  · rw [hk.mixed_eq hexact hρ hnj.1 hnj.2, hk.mixed_eq hexact hρ hnj.2 hnj.1,
      hf.mixed_comm htape hdiv hlawful ho]
  · rw [hk.nnz_inPattern i] at hnj
    rw [ScalarFunction.Expressions.mixed, if_neg hnj, ScalarFunction.Expressions.mixed,
      if_neg fun hjn => hnj hjn.symm]

/-! ### Hessians on both sides -/

/-- Two Hessians evaluate to the same matrix: an expression over the inputs of a matrix function, and a
matrix of scalar expressions over the symbols of a scalar function. They do so over every ring in which
dividing is multiplying by an inverse and all that was folded for them is exact, for all arguments of
the sizes at which the powers of the matrix function obey their law. -/
def SameHessian (f : MatrixFunction) (tape : MatrixTape) (e : MatrixId) (mh : MatrixGraph)
    (k : ScalarFunction) (m : SparseMatrix ScalarId) (h : ScalarGraph) : Prop :=
  ∀ (V : Type) [CommRing V] (I : Interpretation V), I.DividesByInverse → I.algebra.Exact mh.folds →
    mh.DerivedExact I.algebra → I.Exact h → ∀ values : Bundle V,
      values.map List.length = f.inSizes → f.Lawful tape I values →
        (∃ ρ : ScalarId → V, (k.inputs.map fun m => m.values.map ρ) = values) ∧
        ∀ ρ : ScalarId → V, (k.inputs.map fun m => m.values.map ρ) = values → ∀ r c,
          mh.elementOf I.algebra (MatrixTape.supply f.inputs values) e r c = h.entry I ρ m r c

/-- The Hessian of an expansion is the same as the Hessian. -/
theorem Unrolled.exists_sameHessian (hk : f.Unrolled tape inputs outputs t k s)
    {mg mh : MatrixGraph} (hf : f.Ready mg) (hmg : mg.WellTyped) (hcompiled : mg.RoutinesCompiled)
    (htape : f.tape? = some tape) {e : MatrixId} (hrun : f.hess i o mg = .ok e mh) :
    ∃ m s', k.hess i o s = .ok m s' ∧ f.SameHessian tape e mh k m s' := by
  have hshows : ∀ {V : Type} [CommRing V] (I : Interpretation V) (values : Bundle V),
      mg.Grows mh ∧ (i < f.inCount ∧ o < f.outCount ∧
        (f.outPattern o).shape = (1, 1) ∧ (f.inPattern i).numel + 1 < tableLimit) ∧
        (I.DividesByInverse → f.Lawful tape I values →
          mh.Reliable I (MatrixTape.supply f.inputs values) →
          ScalarFunction.Shows (tape.mixed I values f.outCount (f.outPattern o).nnz i o)
            (f.inPattern i) (f.inPattern i) false
            (mh.elementOf I.algebra (MatrixTape.supply f.inputs values) e)) := by
    intro V _ I values
    have hshown := shows_hess I values (fun _ => hf) hcompiled htape i o
    obtain ⟨hgrow, -, hshows⟩ := hshown.of_run hmg hrun
    exact ⟨hgrow, hshows⟩
  -- that there is a Hessian does not depend on the interpretation
  obtain ⟨hgrow, ⟨hi, ho, hshape, hsize⟩, -⟩ := hshows Interpretation.trivial []
  have hready := hk.makes.ready
  have hins : k.inPatterns = f.inPatterns := hk.makes.inPatterns.trans hk.inPatterns
  have houts : k.outPatterns = f.outPatterns := hk.makes.outPatterns.trans hk.outPatterns
  have hin : k.inPattern i = f.inPattern i := by rw [ScalarFunction.inPattern, hins, inPattern]
  have hout : k.outPattern o = f.outPattern o := by rw [ScalarFunction.outPattern, houts, outPattern]
  obtain ⟨m, s', hrun', hgrow', hshows'⟩ := ScalarFunction.exists_hess hready hk.founded
    (by rwa [ScalarFunction.inCount, hins, hf.inCount_eq])
    (by rwa [ScalarFunction.outCount, houts, hf.outCount_eq]) (by rwa [hout]) (by rwa [hin])
  refine ⟨m, s', hrun', fun V _ I hdiv hexact hderived hexact' values hvalues hlawful =>
    ⟨⟨t.reading inputs 0 values [], ?_⟩, fun ρ hρ r c => ?_⟩⟩
  · rw [hready.inputs_eq]
    refine map_reading_inputs (ScalarTape.compiled_of_compile hk.makes.compile) ?_
    rw [hvalues, inSizes, ← hk.inPatterns, List.map_map]
    rfl
  · rw [hready.inputs_eq] at hρ
    have hexact' := ScalarGraph.exact_of_grows hgrow' hexact'
    have hshown := (hshows I values).2.2 hdiv hlawful
      ⟨(hf.grow hgrow).admits htape hexact hvalues, hderived⟩
    have hshown' := hshows' I ρ ‹_› (hk.mixed_comm hexact' hρ hf htape hdiv hlawful ho)
    rw [hin] at hshown'
    exact hshown.congr hshown' (fun n hn j hj => (hk.mixed_eq hexact' hρ hn hj).symm) r c

end MatrixFunction

/-! ### After every history -/

/-- **Hessians commute with expansion.** If a function without free symbols has a Hessian in a graph that
shares its own, then every expansion of the function, on new symbols or on different given ones in any
scalar graph, has one too, and the two evaluate to the same matrix wherever the powers that the function
computes obey their law. -/
theorem LinkedHistory.sameHessian {gs : GraphId → Option MatrixGraph} {fs : List MatrixFunction}
    (hist : LinkedHistory gs fs) {f : MatrixFunction} (hf : f ∈ fs) {tape : MatrixTape}
    (htape : f.tape? = some tape) (hclosed : tape.freeSymbols = []) {id : GraphId} {g h : MatrixGraph}
    (hg : gs id = some g) (hlives : f.livesIn g = true) {i o : Nat} {e : MatrixId}
    (hrun : f.hess i o g = .ok e h) {scalars : GraphId → Option ScalarGraph}
    {functions : List ScalarFunction} (hscalars : ScalarHistory scalars functions) {id' : GraphId}
    {s : ScalarGraph} (hs : scalars id' = some s) :
    (∃ k s₁ m s₂, f.expand s = .ok k s₁ ∧ k.hess i o s₁ = .ok m s₂ ∧
      f.SameHessian tape e h k m s₂) ∧
    ∀ symbols : List ScalarId, (∀ x ∈ symbols, s.isSymbol x = true) → symbols.Nodup →
      symbols.length = f.inSizes.foldr (· + ·) 0 →
      ∃ k s₁ m s₂, f.expandWith symbols s = .ok k s₁ ∧ k.hess i o s₁ = .ok m s₂ ∧
        f.SameHessian tape e h k m s₂ := by
  have hready := hist.history.ready hf hg hlives
  have htyped := hist.history.invariant.2.1 _ _ hg
  have hcompiled := hist.routinesCompiled id g hg
  have hfounded := hscalars.founded hs
  constructor
  · obtain ⟨k, s₁, hexpand, -, inputs, outputs, t, hk⟩ :=
      MatrixFunction.yields_expand hready htyped htape hclosed hfounded
    obtain ⟨m, s₂, hhess, hsame⟩ := hk.exists_sameHessian hready htyped hcompiled htape hrun
    exact ⟨k, s₁, m, s₂, hexpand, hhess, hsame⟩
  · intro symbols hsymbols hnodup hcount
    obtain ⟨k, s₁, hexpand, -, inputs, outputs, t, hk⟩ :=
      MatrixFunction.yields_expandWith hready htyped htape hclosed hsymbols hnodup hcount hfounded
    obtain ⟨m, s₂, hhess, hsame⟩ := hk.exists_sameHessian hready htyped hcompiled htape hrun
    exact ⟨k, s₁, m, s₂, hexpand, hhess, hsame⟩

/-! ### The embedded product -/

namespace EmbeddedProduct

theorem closed_product : Product.tape.freeSymbols = [] := rfl

/-- The product alone. -/
def productTape : MatrixTape where
  instrs := [⟨.input 0, [], some 0, .denseColumn 2, ⟨0⟩⟩,
    ⟨.call ⟨.numbered 0, .forward (.numbered 0), .reverse (.numbered 0), {}, [.denseColumn 2],
      [.scalar], Product.tape, closed_product⟩ 0, [0], some 0, .scalar, ⟨1⟩⟩,
    ⟨.output 0, [0], none, .scalar, ⟨1⟩⟩]
  freeSymbols := []
  freeNames := []
  workSize := 1

def productWith (tape? : Option MatrixTape) : MatrixFunction where
  options := {}
  owner := ⟨.numbered 0, 1⟩
  inputs := [⟨0⟩]
  outputs := [⟨1⟩]
  inPatterns := [.denseColumn 2]
  outPatterns := [.scalar]
  inNames := ["x"]
  tape? := tape?

theorem products : LinkedHistory (Function.update (fun _ => none) (.numbered 0) (some graph))
    [productWith (some productTape), productWith none] := by
  have hdeclared := history.declare (i := .numbered 0) (Function.update_self ..)
    (show MatrixFunction.declare graph [⟨0⟩] [⟨1⟩] {} = .ok (productWith none) from rfl)
  exact .init hdeclared (i := .numbered 0) (Function.update_self ..) (List.mem_singleton_self _)
    (show (productWith none).init graph = .ok (productWith (some productTape)) from rfl)

/-- The Hessian of the embedded product, which derives derivative functions of the routine, is that of
its expansions, on new symbols and on the two symbols of a graph. -/
theorem sameHessian_product :
    ∃ e h, (productWith (some productTape)).hess 0 0 graph = .ok e h ∧
      (∃ k s₁ m s₂, (productWith (some productTape)).expand Product.graph = .ok k s₁ ∧
        k.hess 0 0 s₁ = .ok m s₂ ∧
        (productWith (some productTape)).SameHessian productTape e h k m s₂) ∧
      ∃ k s₁ m s₂, (productWith (some productTape)).expandWith [⟨3⟩, ⟨4⟩] Product.graph
          = .ok k s₁ ∧ k.hess 0 0 s₁ = .ok m s₂ ∧
        (productWith (some productTape)).SameHessian productTape e h k m s₂ := by
  have hok : (((productWith (some productTape)).hess 0 0).run' graph).isSome = true := by
    decide +kernel
  cases hrun : (productWith (some productTape)).hess 0 0 graph with
  | error e h =>
    delta EStateM.run' EStateM.run at hok
    rw [hrun] at hok
    contradiction
  | ok e h =>
    have hgraph : Function.update (fun _ => none) (GraphId.numbered 0) (some graph) (.numbered 0)
        = some graph := Function.update_self ..
    obtain ⟨hnew, hgiven⟩ := products.sameHessian (List.mem_cons_self ..) rfl rfl hgraph (by decide)
      hrun Product.history
      (show Product.graphs (.numbered 0) = some Product.graph from Function.update_self ..)
    exact ⟨e, h, rfl, hnew, hgiven [⟨3⟩, ⟨4⟩] (by decide) (by decide) (by decide)⟩

end EmbeddedProduct

end Fluxion
