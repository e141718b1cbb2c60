import Fluxion.Proofs.Jacobian.Hessian
import Fluxion.Proofs.Jacobian.MatrixSeeds

/-!
# Jacobians of matrix functions

Each sweep of a plan stores derivatives along a group of nonzeros, and the gather that assembles a
Jacobian takes every entry from the sweep and the component that the plan found for it. Plans lose
nothing, so the Jacobian has the partial derivatives of the function in the places of its nonzeros and
zeros elsewhere.

Gradients and tangents take one sweep of the kind and store the same derivatives.

Free symbols have the values that they are given. Where none are given they are zero, and the partial
derivatives are those of the tape, run over dual numbers. What was folded on the way has to be exact.

## Main results

* `MatrixFunction.Ready.stores_sweepResults` — what the sweeps of a plan store
* `MatrixFunction.shows_jac_slope`, `MatrixFunction.shows_jac`, `MatrixFunction.shows_jacobian` —
  **Jacobians show partial derivatives**
* `MatrixFunction.stores_grad_slope`, `MatrixFunction.stores_tang_slope` — gradients and tangents store
  them
-/

namespace Fluxion

open MatrixBuilder MatrixGraph

variable {V : Type} [CommRing V]

namespace Pattern

variable {p output input : Pattern} {J : Nat → Nat → V}

/-- A matrix that is zero outside of a pattern, moved to the assembled pattern, has its elements in the
places of the nonzeros. -/
theorem shows_assembled (compact : Bool) (hrows : p.nrows = output.nnz) (hcols : p.ncols = input.nnz)
    (hsupport : ∀ k j, (k, j) ∉ p.positions → J k j = 0) :
    ScalarFunction.Shows J output input compact
      ((p.assembled output input compact).placed (p.elements J)) where
  place k hk j hj := by
    rw [placed, find?_assembled hrows hcols hk hj]
    cases hfound : p.find? k j with
    | none => exact (hsupport k j (find?_eq_none_iff.mp hfound)).symm
    | some n => exact getD_elements (find?_eq_some_iff.mp hfound) J
  other r c hrc := by
    rw [placed, find?_assembled_eq_none hrows hcols hrc]
    rfl

end Pattern

/-- What is stored of a matrix in the places of a pattern is all of it. -/
theorem MatrixGraph.Stores.elementOf_placed {g : MatrixGraph} {A : Algebra Id V}
    {given : MatrixId → Option (List V)} {e : MatrixId} {p : Pattern} {elements : List V}
    (he : g.Stores A given e p (p.placed elements)) (hadm : g.Admits A given) :
    g.elementOf A given e = p.placed elements := by
  funext r c
  by_cases hrc : (r, c) ∈ p.positions
  · exact he.elementOf_eq hadm hrc
  · rw [elementOf_of_not_mem he.pattern hrc, Pattern.placed, Pattern.find?_eq_none_iff.mpr hrc]
    rfl

namespace MatrixFunction

variable {f : MatrixFunction} {g h : MatrixGraph} {tape : MatrixTape} {I : Interpretation V}
  {values : Bundle V} {i o : Nat} {e : MatrixId} {p : Pattern}

/-! ### Sweeps of a plan -/

section Zeros

variable {given : MatrixId → Option (List V)} {x : Nat → Nat → V}

theorem stores_orZero {t : Option MatrixId} (ht : g.AmountsTo I.algebra given t p x) :
    Keeps (orZero p t) g fun d h => h.Stores I.algebra given d p x := by
  cases t with
  | none => exact stores_zero I.simplifies.toOnRing ht
  | some d => exact keeps_pure ht

/-- Derivatives that are missing are made up for by zeros. -/
theorem stores_orZeros {δ : Type} {ds : List δ} {ts : List (Option MatrixId)} {count : Nat}
    {x : δ → Nat → Nat → V} (hon : AllOn count p ts g) (hts : g.Reliable I given →
      List.Forall₂ (fun d t => g.AmountsTo I.algebra given t p (x d)) ds ts) :
    Keeps (ts.mapM (orZero p)) g fun es h => h.Reliable I given →
      List.Forall₂ (fun d e => h.Stores I.algebra given e p (x d)) ds es := by
  refine ((keeps_orZeros hon).guarded reliable_of_grows fun hg => ?_).imp fun es h _ hes => hes.2
  exact (Keeps.mapM_related (fun _ _ _ _ hgh ht => ht.grow hgh) (fun _ _ _ _ hgh he => he.grow hgh)
    (fun _ _ _ _ ht => stores_orZero ht) (hts hg)).imp fun _ _ _ hes _ => hes

end Zeros

/-- **What the sweeps of a plan store**: for each of them what it shows of the partial derivatives. -/
theorem Ready.stores_sweepResults (hf : f.Ready g) (I : Interpretation V)
    {given : MatrixId → Option (List V)} (hgiven : ∀ e ∈ f.inputs, ∃ values, given e = some values)
    (hcompiled : g.RoutinesCompiled) (htape : f.tape? = some tape) (hi : i < f.inCount)
    (ho : o < f.outCount) (hrows : p.nrows = (f.outPattern o).nnz)
    (hcols : p.ncols = (f.inPattern i).nnz) (plan : JacobianPlan) :
    Keeps (f.sweepResults plan i o) g fun ds h =>
      h.Reliable I given → ∀ s < plan.sweeps.length, ∃ d, ds[s]? = some d ∧
        h.Stores I.algebra given d (f.planPattern plan i o)
          ((f.planPattern plan i o).numbered (plan.shown p (f.slope g I given i o) s)) := by
  obtain ⟨direction, sweeps, lookup⟩ := plan
  cases direction with
  | forward =>
    refine (stores_groupSeeds I given _ sweeps).bind fun seeds h hgh hseeds => ?_
    refine ((keeps_forwardColumns (hf.grow hgh) ho i seeds).and
      ((hf.grow hgh).amounts_forwardColumns htape hgiven hi ho hseeds)).bind
        fun columns k _ hcolumns => ?_
    refine (stores_orZeros hcolumns.1 hcolumns.2).imp fun ds l _ hds hr s hs => ?_
    have hs' : s < ds.length := (hds hr).length_eq ▸ hs
    have hstored := (hds hr).get hs hs'
    refine ⟨ds[s], List.getElem?_eq_getElem hs', ?_⟩
    have hshown : (JacobianPlan.mk .forward sweeps lookup).shown p (f.slope g I given i o) s
        = fun k => seeded (f.inPattern i).nnz sweeps[s] fun j => f.slope g I given i o k j := by
      funext k
      rw [JacobianPlan.shown, hcols, List.getD_eq_getElem _ _ hs]
    rw [hf.slope_grow hgh] at hstored
    exact hshown ▸ hstored
  | reverse =>
    refine ((keepsCompiled_mapM (keepsCompiled_groupSeed _) sweeps).keeps hcompiled
      (stores_groupSeeds I given _ sweeps)).bind fun seeds h hgh hseeds => ?_
    refine ((keeps_reverseRows (hf.grow hgh) hi o seeds).and
      ((hf.grow hgh).amounts_reverseRows hseeds.1 htape hgiven hi ho hseeds.2)).bind
        fun rows k _ hrows' => ?_
    refine (stores_orZeros hrows'.1 hrows'.2).imp fun ds l _ hds hr s hs => ?_
    have hs' : s < ds.length := (hds hr).length_eq ▸ hs
    have hstored := (hds hr).get hs hs'
    refine ⟨ds[s], List.getElem?_eq_getElem hs', ?_⟩
    have hshown : (JacobianPlan.mk .reverse sweeps lookup).shown p (f.slope g I given i o) s
        = fun j => seeded (f.outPattern o).nnz sweeps[s] fun k => f.slope g I given i o k j := by
      funext j
      rw [JacobianPlan.shown, hrows, List.getD_eq_getElem _ _ hs]
    rw [hf.slope_grow hgh] at hstored
    exact hshown ▸ hstored

/-! ### Jacobians -/

/-- The components of a sweep are the nonzeros of what it stores. -/
theorem components_eq (hrows : p.nrows = (f.outPattern o).nnz) (hcols : p.ncols = (f.inPattern i).nnz)
    (plan : JacobianPlan) : plan.components p = (f.planPattern plan i o).nnz := by
  obtain ⟨direction, sweeps, lookup⟩ := plan
  cases direction with
  | forward => exact hrows
  | reverse => exact hcols

/-- **What is gathered** from the sweeps of a plan are the entries of the matrix. -/
theorem stores_assemble {given : MatrixId → Option (List V)} {J : Nat → Nat → V}
    (hrows : p.nrows = (f.outPattern o).nnz) (hcols : p.ncols = (f.inPattern i).nnz)
    {compact symmetric : Bool} (hsupport : ∀ k j, (k, j) ∉ p.positions → J k j = 0)
    (hsymmetric : symmetric = true → p.nrows = p.ncols → ∀ k j, J k j = J j k)
    {ds : List MatrixId} (hds : ∀ s < (JacobianPlan.make p f.options symmetric).sweeps.length,
      ∃ d, ds[s]? = some d ∧ g.Stores I.algebra given d
        (f.planPattern (JacobianPlan.make p f.options symmetric) i o)
        ((f.planPattern (JacobianPlan.make p f.options symmetric) i o).numbered
          ((JacobianPlan.make p f.options symmetric).shown p J s))) :
    Keeps (gather ds ((JacobianPlan.make p f.options symmetric).lookup.map some)
      (p.assembled (f.outPattern o) (f.inPattern i) compact)) g fun e h =>
        h.Stores I.algebra given e (p.assembled (f.outPattern o) (f.inPattern i) compact)
          ((p.assembled (f.outPattern o) (f.inPattern i) compact).placed (p.elements J)) := by
  have hshows := JacobianPlan.shows_make f.options hsupport hsymmetric
  generalize JacobianPlan.make p f.options symmetric = plan at *
  have hplaced := Pattern.shows_assembled compact hrows hcols hsupport
  refine stores_gather I.simplifies.toOnRing ?_
  rw [Pattern.positions_assembled_place hrows hcols]
  refine List.forall₂_map_left_iff.mpr (List.forall₂_map_right_iff.mpr
    ((forall₂_and_mem hshows).flip.imp fun place position hshown => ?_))
  obtain ⟨hposition, hs, hk, hentry⟩ := hshown
  obtain ⟨d, hd, hstored⟩ := hds place.1 hs
  obtain ⟨ij, hij⟩ := Pattern.exists_position (components_eq hrows hcols plan ▸ hk)
  have htakes := Takes.nonzero hd hstored hij
  rw [Pattern.numbered_of_getElem? hij, hentry] at htakes
  rwa [hplaced.place _ (hrows ▸ Pattern.row_lt_of_mem_positions hposition) _
    (hcols ▸ Pattern.column_lt_of_mem_positions hposition)]

/-- **Jacobians show partial derivatives**, whatever values the inputs and the free symbols are given, if
what was folded is exact. If symmetry was promised, the partial derivatives have to be symmetric. -/
theorem shows_jac_slope (I : Interpretation V) (i o : Nat) (compact : Bool)
    (hf : f.livesIn g = true → f.Ready g) (hcompiled : g.RoutinesCompiled)
    (htape : f.tape? = some tape) {given : MatrixId → Option (List V)}
    (hgiven : ∀ e ∈ f.inputs, ∃ values, given e = some values)
    {symmetric : Bool} (hsymmetric : symmetric = true →
      (f.outPattern o).nnz = (f.inPattern i).nnz → g.Reliable I given →
      ∀ k j, f.slope g I given i o k j = f.slope g I given i o j k) :
    Keeps (f.jac i o compact symmetric) g fun e h => (i < f.inCount ∧ o < f.outCount ∧
      (compact = true ∨
        (f.outPattern o).numel < countLimit ∧ (f.inPattern i).numel + 1 < tableLimit)) ∧
      (h.Reliable I given → ScalarFunction.Shows (f.slope g I given i o) (f.outPattern o)
        (f.inPattern i) compact (h.elementOf I.algebra given e)) := by
  refine keeps_of_wellTyped fun hg => keeps_get_bind (keeps_ofExcept_bind fun _ hrequest => ?_)
  have hf := hf (request_eq_ok hrequest).2.2
  refine keeps_ofExcept_bind fun p hp => ?_
  obtain ⟨hi, ho, hrows, hcols⟩ := shape_dependencyPattern hf hg hp
  dsimp only
  refine ((keeps_sweepResults hf hi ho _).and (hf.stores_sweepResults I hgiven
    hcompiled htape hi ho hrows hcols _)).bind fun ds h hgh hds => ?_
  refine keeps_ofExcept_bind fun assembled hassembled => ?_
  obtain rfl := Pattern.eq_assembled hassembled
  have hsize : compact = true ∨
      (f.outPattern o).numel < countLimit ∧ (f.inPattern i).numel + 1 < tableLimit := by
    by_contra hsize
    rw [Pattern.assembledOf, if_neg hsize] at hassembled
    contradiction
  refine ((keeps_assemble hrows hcols hds.1.1 hds.1.2 compact).guarded reliable_of_grows
    fun hr => ?_).imp fun e k _ he => ⟨⟨hi, ho, hsize⟩, he.2⟩
  have hr' := hr.of_grows hgh
  have hsupport : ∀ k j, (k, j) ∉ p.positions → f.slope g I given i o k j = 0 :=
    fun _ _ hkj => hf.slope_eq_zero htape ⟨hg, hr'.admits⟩ hgiven hp hkj
  refine (stores_assemble hrows hcols hsupport (fun htold hsquare =>
    hsymmetric htold (hrows ▸ hcols ▸ hsquare) hr') (hds.2 hr)).imp fun e k _ he hk => ?_
  rw [he.elementOf_placed hk.admits]
  exact Pattern.shows_assembled compact hrows hcols hsupport

/-- Where free symbols are zero, they show the partial derivatives of the tape. -/
theorem shows_jac (I : Interpretation V) (values : Bundle V) (i o : Nat) (compact : Bool)
    (hf : f.livesIn g = true → f.Ready g) (hcompiled : g.RoutinesCompiled)
    (htape : f.tape? = some tape) {symmetric : Bool} (hsymmetric : symmetric = true →
      (f.outPattern o).nnz = (f.inPattern i).nnz → g.Reliable I (MatrixTape.supply f.inputs values) →
      ∀ k j, tape.partials I values f.outCount i o k j = tape.partials I values f.outCount i o j k) :
    Keeps (f.jac i o compact symmetric) g fun e h => (i < f.inCount ∧ o < f.outCount ∧
      (compact = true ∨
        (f.outPattern o).numel < countLimit ∧ (f.inPattern i).numel + 1 < tableLimit)) ∧
      (h.Reliable I (MatrixTape.supply f.inputs values) →
        ScalarFunction.Shows (tape.partials I values f.outCount i o) (f.outPattern o) (f.inPattern i)
          compact (h.elementOf I.algebra (MatrixTape.supply f.inputs values) e)) := by
  by_cases hlives : f.livesIn g = true
  · refine keeps_of_wellTyped fun hg => ?_
    have hslope : g.Reliable I (MatrixTape.supply f.inputs values) →
        f.slope g I (MatrixTape.supply f.inputs values) i o
          = tape.partials I values f.outCount i o :=
      fun hr => (hf hlives).slope_supply htape ⟨hg, hr.admits⟩ i o
    refine (shows_jac_slope I i o compact hf hcompiled htape (exists_supply values)
      fun htold hsquare hr => ?_).imp fun e h hgh he => ⟨he.1, fun hr => ?_⟩
    · rw [hslope hr]
      exact hsymmetric htold hsquare hr
    · rw [← hslope (hr.of_grows hgh)]
      exact he.2 hr
  · exact keeps_get_bind (keeps_ofExcept_bind fun _ hrequest =>
      absurd (request_eq_ok hrequest).2.2 hlives)

/-! ### Gradients and tangents -/

theorem stores_seed (I : Interpretation V) (given : MatrixId → Option (List V)) (p : Pattern) :
    Keeps (fill p 1.0) g fun s h => h.Stores I.algebra given s p
      (p.numbered (indicator V (List.range p.nnz))) := by
  refine stores_constant _ fun h _ _ => ?_
  change ((List.range p.nnz).map fun _ => (1.0 : Binary64)).map I.literal
    = p.elements (p.numbered (indicator V (List.range p.nnz)))
  rw [Pattern.elements_numbered, List.map_map]
  refine List.map_congr_left fun k hk => ?_
  rw [Function.comp_apply, I.literal_one, indicator, if_pos hk]

/-- **Gradients store derivatives** in the nonzeros of the input: of all nonzeros of the output
together. -/
theorem stores_grad_slope (I : Interpretation V) (hf : f.livesIn g = true → f.Ready g)
    (hcompiled : g.RoutinesCompiled) (htape : f.tape? = some tape)
    {given : MatrixId → Option (List V)} (hgiven : ∀ e ∈ f.inputs, ∃ values, given e = some values)
    (i o : Nat) :
    Keeps (f.grad i o) g fun e h =>
      (i < f.inCount ∧ o < f.outCount ∧ (f.outPattern o).shape = (1, 1)) ∧ f.livesIn g = true ∧
      On (f.inPattern i) e h ∧ (h.Reliable I given →
        h.Stores I.algebra given e (f.inPattern i) ((f.inPattern i).numbered fun j =>
          seeded (f.outPattern o).nnz (List.range (f.outPattern o).nnz) fun k =>
            f.slope g I given i o k j)) := by
  refine keeps_get_bind (keeps_ofExcept_bind fun _ hrequest => ?_)
  obtain ⟨hi, ho, hlives⟩ := request_eq_ok hrequest
  have hready := hf hlives
  dsimp only
  split
  · exact Keeps.bind (Q := fun _ _ => False) (keeps_throw _) fun _ _ _ h => h.elim
  · rename_i hshape
    refine ((keepsCompiled_fill _ _).keeps hcompiled (stores_seed I given (f.outPattern o))).bind
      fun seed h hgh hseed => ?_
    refine ((keeps_reverseRows (hready.grow hgh) hi o [seed]).and
      ((hready.grow hgh).amounts_reverseRows hseed.1 htape hgiven hi ho (.cons hseed.2 .nil))).bind
        fun rows k _ hrows => ?_
    refine ((keeps_orZero (on_headD hrows.1)).guarded reliable_of_grows fun hr =>
      (stores_orZero ?_).imp fun _ _ _ he _ => he).imp fun e m _ he =>
        ⟨⟨hi, ho, not_not.mp hshape⟩, hlives, he⟩
    rw [← hready.slope_grow hgh]
    cases hrows.2 hr with
    | cons hrow _ => exact hrow

/-- **Tangents store derivatives** of the nonzeros of the output: in all nonzeros of the input
together. -/
theorem stores_tang_slope (I : Interpretation V) (hf : f.livesIn g = true → f.Ready g)
    (htape : f.tape? = some tape) {given : MatrixId → Option (List V)}
    (hgiven : ∀ e ∈ f.inputs, ∃ values, given e = some values) (i o : Nat) :
    Keeps (f.tang i o) g fun e h =>
      (i < f.inCount ∧ o < f.outCount ∧ (f.inPattern i).shape = (1, 1)) ∧ f.livesIn g = true ∧
      On (f.outPattern o) e h ∧ (h.Reliable I given →
        h.Stores I.algebra given e (f.outPattern o) ((f.outPattern o).numbered fun k =>
          seeded (f.inPattern i).nnz (List.range (f.inPattern i).nnz) fun j =>
            f.slope g I given i o k j)) := by
  refine keeps_get_bind (keeps_ofExcept_bind fun _ hrequest => ?_)
  obtain ⟨hi, ho, hlives⟩ := request_eq_ok hrequest
  have hready := hf hlives
  dsimp only
  split
  · exact Keeps.bind (Q := fun _ _ => False) (keeps_throw _) fun _ _ _ h => h.elim
  · rename_i hshape
    refine (stores_seed I given (f.inPattern i)).bind fun seed h hgh hseed => ?_
    refine ((keeps_forwardColumns (hready.grow hgh) ho i [seed]).and
      ((hready.grow hgh).amounts_forwardColumns htape hgiven hi ho (.cons hseed .nil))).bind
        fun columns k _ hcolumns => ?_
    refine ((keeps_orZero (on_headD hcolumns.1)).guarded reliable_of_grows fun hr =>
      (stores_orZero ?_).imp fun _ _ _ he _ => he).imp fun e m _ he =>
        ⟨⟨hi, ho, not_not.mp hshape⟩, hlives, he⟩
    rw [← hready.slope_grow hgh]
    cases hcolumns.2 hr with
    | cons hcolumn _ => exact hcolumn

/-! ### Jacobian functions -/

/-- The matrix that output `o` evaluates to, zero where nothing is stored. -/
def outputOf (f : MatrixFunction) (A : Algebra Id V) (values : Bundle V) (o r c : Nat) : V :=
  f.tape?.elim 0 fun tape =>
    (f.outPattern o).placed ((Id.run (tape.replay A values f.outCount)).getD o []) r c

/-- Outputs evaluate to what the expressions are. -/
theorem Ready.outputOf_eq (hf : f.Ready g) (htape : f.tape? = some tape) (ho : f.outputs[o]? = some e)
    (A : Algebra Id V) (values : Bundle V) :
    f.outputOf A values o = g.elementOf A (MatrixTape.supply f.inputs values) e := by
  funext r c
  rw [outputOf, htape, Option.elim_some, hf.replay_getD htape ho, elementOf,
    MatrixGraph.patternIn_eq (hf.pattern?_output ho), Pattern.placed]

/-- **Jacobian functions compute partial derivatives.** -/
theorem shows_jacobian (I : Interpretation V) (values : Bundle V) (i o : Nat) (compact : Bool)
    (hf : f.livesIn g = true → f.Ready g) (hcompiled : g.RoutinesCompiled)
    (htape : f.tape? = some tape) {symmetric : Bool} (hsymmetric : symmetric = true →
      (f.outPattern o).nnz = (f.inPattern i).nnz → g.Reliable I (MatrixTape.supply f.inputs values) →
      ∀ k j, tape.partials I values f.outCount i o k j = tape.partials I values f.outCount i o j k) :
    Keeps (f.jacobian i o compact symmetric) g fun F h => (i < f.inCount ∧ o < f.outCount ∧
      (compact = true ∨
        (f.outPattern o).numel < countLimit ∧ (f.inPattern i).numel + 1 < tableLimit)) ∧
      (h.Reliable I (MatrixTape.supply f.inputs values) →
        ScalarFunction.Shows (tape.partials I values f.outCount i o) (f.outPattern o) (f.inPattern i)
          compact (F.outputOf I.algebra values 0)) := by
  refine (shows_jac I values i o compact hf hcompiled htape hsymmetric).bind fun e h _ he =>
    keeps_get_bind (keeps_ofExcept fun F hmake => ⟨he.1, fun hr => ?_⟩)
  have hmade := made_of_make hmake
  obtain ⟨t, ht, -⟩ := hmade.compiled
  rw [hmade.ready.outputOf_eq ht (by rw [hmade.outputs_eq]; rfl), hmade.inputs_eq]
  exact he.2 hr

end MatrixFunction

end Fluxion
