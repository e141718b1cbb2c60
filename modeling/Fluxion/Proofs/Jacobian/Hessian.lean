import Fluxion.Proofs.Expansion.Symbols
import Fluxion.Proofs.Jacobian.Scalar
import Fluxion.Proofs.Scalar.Symmetry

/-!
# Hessians of scalar functions

The gradient of an output is a matrix of expressions, which a reverse sweep has built and the graph
has simplified. It is read as the partial derivatives, in every exact interpretation, and so in dual
numbers. The Jacobian of the gradient therefore has the second derivatives of the output along two
directions of the input, and these do not depend on their order wherever the powers of the function
obey their law. That is all that the plan for a symmetric matrix asks for.

## Main definitions

* `ScalarFunction.Expressions.gradient`, `ScalarFunction.Expressions.mixed` — first and second
  derivatives
* `ScalarFunction.Lawful` — the powers that a function computes obey their law
* `ScalarFunction.plainHess` — the Jacobian of the gradient without any promise

## Main results

* `ScalarTape.Resides.value_exchange` — expressions respect the exchange of two directions
* `ScalarFunction.mixed_comm` — **second derivatives do not depend on the order**
* `ScalarHistory.entries_hess` — **Hessians are symmetric**, and equal to the plain Jacobian
-/

namespace Fluxion

open ScalarBuilder ScalarTape

variable {V : Type} [CommRing V] {I : Interpretation V} {ρ : ScalarId → V}

/-! ### Watched runs of functions over their own expressions -/

namespace ScalarTape

variable {g : ScalarGraph} {inputs outputs : List (SparseMatrix ScalarId)} {tape : ScalarTape}

theorem supplies_map {W : Type} (inputs : List (SparseMatrix ScalarId)) (tape : ScalarTape)
    (given : ScalarId → W) (zero : W) :
    Supplies tape inputs given zero (inputs.map fun m => m.values.map given)
      (tape.freeSymbols.map given) := by
  constructor
  · intro p hp
    obtain ⟨m, hm, he⟩ := mem_places.mp hp
    simp [List.getD_eq_getElem?_getD, hm, he]
  · intro k e he
    simp [List.getD_eq_getElem?_getD, he]

theorem Resides.has_output (ht : Resides g inputs outputs tape) {p : Place} (hp : p ∈ places outputs) :
    g.Has p.e := by
  obtain ⟨-, bound, -, -, -, hsize, -, hout⟩ := ht
  exact ScalarGraph.has_of_index_lt (Nat.lt_of_lt_of_le (hout p hp) hsize)

/-- **Expressions respect the exchange of two directions**, if all powers of the tape obey their
law. -/
theorem Resides.value_exchange (ht : Resides g inputs outputs tape) (hdiv : I.DividesByInverse)
    (hlawful : (tape.replay I.watching (inputs.map fun m => m.values.map ρ)
      (tape.freeSymbols.map ρ) (countsOf outputs)).lawful)
    {ζ : ScalarId → DualNumber (DualNumber V)} (hζ : ∀ e, (ζ e).fst.fst = ρ e) {p : Place}
    (hp : p ∈ places outputs) :
    g.value I.dual.dual (fun e => exchange (ζ e)) p.e = exchange (g.value I.dual.dual ζ p.e) := by
  let both : ScalarId → DualNumber (DualNumber V) × DualNumber (DualNumber V) :=
    fun e => (ζ e, exchange (ζ e))
  have hgiven : ∀ e, Interpretation.Exchanged (ρ e) (both e) := fun e => ⟨hζ e, rfl⟩
  have hrun : Bundle.Related Interpretation.Exchanged
      (tape.replay I.watching (inputs.map fun m => m.values.map ρ) (tape.freeSymbols.map ρ)
        (countsOf outputs)).value
      (Id.run (tape.replay (I.dual.dual.algebra.pair I.dual.dual.algebra)
        (inputs.map fun m => m.values.map both) (tape.freeSymbols.map both) (countsOf outputs))) :=
    ensures_replay (Interpretation.follows_exchange hdiv) tape
      (.of_forall₂ (forall₂_map_same _ fun m _ => forall₂_map_same _ fun e _ => hgiven e))
      (forall₂_map_same tape.freeSymbols fun e _ => hgiven e) (countsOf outputs) hlawful
  have hread := hrun.getD ((Interpretation.follows_exchange hdiv).constant 0.0 trivial)
    p.index p.nonzero
  rw [ScalarTape.replay_eq, Grid.getD_toBundle,
    ht.read_finish (supplies_map inputs tape both _) hp, ScalarGraph.evaluate_pair] at hread
  exact hread.2

end ScalarTape

/-- Values that are fitted to a pattern keep their places. -/
theorem SparseMatrix.getD_fitted {α : Type} {p : Pattern} {row : List α} {fill : α} {k : Nat}
    (hk : k < p.nnz) : (SparseMatrix.fitted p row fill).values.getD k fill = row.getD k fill := by
  rw [SparseMatrix.fitted, List.getD_eq_getElem?_getD, List.getD_eq_getElem?_getD,
    List.getElem?_append, List.length_take]
  split
  · rw [List.getElem?_take, if_pos hk]
  · rw [List.getElem?_replicate, List.getElem?_eq_none (by omega)]
    split <;> rfl

namespace ScalarFunction

variable {f : ScalarFunction} {g h : ScalarGraph} {e : Expressions} {tape : ScalarTape} {i o k j : Nat}

/-! ### First and second derivatives -/

section Derivatives

variable (g : ScalarGraph) (I : Interpretation V) (ρ : ScalarId → V)

/-- The derivative of all values of output `o` together in value `k` of input `i`. -/
def Expressions.gradient (e : Expressions) (i o k : Nat) : V :=
  seeded ((countsOf e.outputs).getD o 0) (List.range ((countsOf e.outputs).getD o 0))
    fun l => e.partials g I ρ i o l k

/-- Symbols that move in two directions at once. -/
def twoWays (a b : ScalarId) (x : ScalarId) : DualNumber (DualNumber V) :=
  dualOf (dualOf (ρ x) (ScalarGraph.unit b x)) (dualOf (ScalarGraph.unit a x) 0)

/-- The second derivative of all values of output `o` together in values `k` and `j` of input `i`. -/
def Expressions.mixed (e : Expressions) (i o k j : Nat) : V :=
  if k < (countsOf e.inputs).getD i 0 ∧ j < (countsOf e.inputs).getD i 0 then
    seeded ((countsOf e.outputs).getD o 0) (List.range ((countsOf e.outputs).getD o 0)) fun l =>
      (g.evaluate I.secondAlgebra (twoWays ρ (valueAt e.inputs i k) (valueAt e.inputs i j))
        (valueAt e.outputs o l)).snd.snd
  else 0

end Derivatives

/-- Wherever the function computes a power, its exponent can be lowered. -/
def Lawful (f : ScalarFunction) (e : Expressions) (tape : ScalarTape) (I : Interpretation V)
    (ρ : ScalarId → V) : Prop :=
  (tape.replay I.watching (e.inputs.map fun m => m.values.map ρ) (tape.freeSymbols.map ρ)
    f.outSizes).lawful

theorem snd_seeded {W : Type} [CommRing W] (n : Nat) (group : List Nat) (x : Nat → DualNumber W) :
    (seeded n group x).snd = seeded n group fun l => (x l).snd := by
  rw [seeded, seeded]
  generalize (List.range n).filter (· ∈ group) = ls
  induction ls with
  | nil => rfl
  | cons l rest ih =>
    rw [List.map_cons, List.sum_cons, TrivSqZeroExt.snd_add, ih, List.map_cons, List.sum_cons]

/-- The derivative of the gradient is the second derivative. -/
theorem snd_gradient (hk : k < (countsOf e.inputs).getD i 0) (hj : j < (countsOf e.inputs).getD i 0) :
    (e.gradient g I.dual
        (fun x => dualOf (ρ x) (ScalarGraph.unit (valueAt e.inputs i j) x)) i o k).snd
      = e.mixed g I ρ i o k j := by
  rw [Expressions.gradient, snd_seeded, Expressions.mixed, if_pos ⟨hk, hj⟩, seeded, seeded]
  refine congrArg List.sum (List.map_congr_left fun l hl => ?_)
  have hl := List.mem_range.mp (List.mem_filter.mp hl).1
  rw [Expressions.partials, if_pos ⟨hl, hk⟩, ScalarGraph.partialIn, ScalarGraph.tangent_eq_snd]
  refine congrArg (fun ζ => (g.value I.dual.dual ζ (valueAt e.outputs o l)).snd.snd) (funext fun x => ?_)
  simp only [twoWays, ScalarGraph.unit]
  by_cases hx : x = valueAt e.inputs i k
  · rw [if_pos hx, if_pos hx]
    rfl
  · rw [if_neg hx, if_neg hx]
    rfl

/-- **Second derivatives do not depend on the order** of the directions. -/
theorem mixed_comm (hr : f.Ready g e tape) (hdiv : I.DividesByInverse)
    (hlawful : f.Lawful e tape I ρ) : e.mixed g I ρ i o k j = e.mixed g I ρ i o j k := by
  rw [Lawful, hr.holds.outSizes] at hlawful
  rw [Expressions.mixed, Expressions.mixed]
  by_cases hkj : k < (countsOf e.inputs).getD i 0 ∧ j < (countsOf e.inputs).getD i 0
  · rw [if_pos hkj, if_pos hkj.symm]
    refine congrArg List.sum (List.map_congr_left fun l hl => ?_)
    have hl := List.mem_range.mp (List.mem_filter.mp hl).1
    exact congrArg (fun z => z.snd.snd) (hr.resides.value_exchange hdiv hlawful
      (ζ := twoWays ρ (valueAt e.inputs i j) (valueAt e.inputs i k)) (fun _ => rfl)
      (valueAt_mem_places hl))
  · rw [if_neg hkj, if_neg fun hjk => hkj hjk.symm]

/-! ### The gradient as a function -/

theorem Ready.inputs_eq (hr : f.Ready g e tape) : f.inputs = e.inputs := by
  rw [inputs, hr.stage]
  rfl

theorem Ready.symbols (hr : f.Ready g e tape) : ∀ x ∈ handlesOf e.inputs, g.isSymbol x = true := by
  intro x hx
  rw [← map_e_places] at hx
  obtain ⟨p, hp, rfl⟩ := List.mem_map.mp hx
  exact hr.resides.isSymbol_input hp

theorem Ready.nodup (hr : f.Ready g e tape) : (handlesOf e.inputs).Nodup := by
  refine List.Nodup.of_map ScalarId.index ?_
  rw [← map_e_places, List.map_map]
  exact hr.resides.distinct

/-- A function that has just been made can be worked on. -/
theorem Makes.ready {inputs outputs : List (SparseMatrix ScalarId)} (hf : Makes g inputs outputs tape f) :
    f.Ready g ⟨inputs, outputs, none⟩ tape := by
  have hlast : ∀ x ∈ handlesOf (inputs ++ outputs), x.index ≤ f.owner.last := fun x hx => by
    rw [hf.owner]
    exact le_foldl_max.2 _ (List.mem_map_of_mem hx)
  have hsplit : handlesOf (inputs ++ outputs) = handlesOf inputs ++ handlesOf outputs :=
    List.flatMap_append ..
  have hcompiled := compiled_of_compile hf.compile
  refine ⟨hf.stage, ?_, ⟨hf.inPatterns, hf.outPatterns, fun p hp => hlast _ ?_, fun p hp =>
    hlast _ ?_⟩, g, g.size, hcompiled, fun _ _ => rfl, le_rfl, le_rfl, fun p hp => ?_, fun p hp => ?_⟩
  · rw [livesIn, hf.owner, Lineage.sharesOwner, Lineage.shares, BEq.rfl, Bool.true_or]
  · rw [hsplit]
    exact List.mem_append_left _ (mem_handlesOf hp)
  · rw [hsplit]
    exact List.mem_append_right _ (mem_handlesOf hp)
  · exact (ScalarGraph.has_of_isSymbol (hcompiled.symbols p hp)).index_lt
  · exact (hcompiled.known p hp).index_lt

/-- The gradient is stored on the pattern of the input, and it is read as the derivatives. -/
theorem exists_grad (hr : f.Ready g e tape) (hg : g.Founded) (hi : i < f.inCount)
    (ho : o < f.outCount) (hshape : (f.outPattern o).shape = (1, 1)) :
    ∃ m h, f.grad i o g = .ok m h ∧ g.Grows h ∧ m.pattern = f.inPattern i ∧
      (∀ x ∈ m.values, h.Has x) ∧
      ∀ {V : Type} [CommRing V] (I : Interpretation V) (ρ : ScalarId → V), I.Exact h →
        ∀ k < (f.inPattern i).nnz,
          h.value I ρ (m.values.getD k .zero) = e.gradient g I ρ i o k := by
  have hgrad : ∀ {V : Type} [CommRing V] (I : Interpretation V) (ρ : ScalarId → V),
      Yields (f.grad i o) g fun m h => m.pattern = f.inPattern i ∧
        ∀ k < (f.inPattern i).nnz,
          h.Reads I ρ (m.values.getD k .zero) (e.gradient g I ρ i o k) := by
    intro V _ I ρ
    rw [grad]
    refine yields_get_bind (yields_ofExcept_bind (hr.request_eq hi ho) ?_)
    dsimp only
    rw [if_neg (not_not.mpr hshape)]
    refine yields_ofExcept_bind hr.tape_eq ?_
    refine (yields_reverseRows I ρ hr i o [List.range (f.outPattern o).nnz]).bind
      fun rows h hgh hrows => yields_pure ⟨rfl, fun k hk => ?_⟩
    obtain ⟨row, hrow, rfl⟩ : ∃ row, (∀ j < (countsOf e.inputs).getD i 0,
        h.Reads I ρ (row.getD j .zero) (e.gradient g I ρ i o j)) ∧ rows = [row] := by
      cases hrows with
      | cons hrow hnil =>
        cases hnil
        rw [hr.holds.nnz_outPattern] at hrow
        exact ⟨_, hrow, rfl⟩
    rw [List.headD_cons, SparseMatrix.getD_fitted hk]
    exact hrow k (hr.holds.nnz_inPattern ▸ hk)
  obtain ⟨m, h, hrun, hgrow, hpattern, hreads⟩ := hgrad Interpretation.trivial 0 hg
  refine ⟨m, h, hrun, hgrow, hpattern, fun x hx => ?_, fun I ρ hexact k hk => ?_⟩
  · obtain ⟨k, hk, rfl⟩ := List.getElem_of_mem hx
    have hlt : k < (f.inPattern i).nnz := by rwa [← hpattern, ← m.length_values]
    have := (hreads k hlt).1
    rwa [List.getD_eq_getElem _ _ hk] at this
  · exact (((hgrad I ρ).of_run hg hrun).2.2 k hk).2 hexact

/-- The gradient of an output as a function of the same inputs. -/
def gradientFunction (f : ScalarFunction) (i o : Nat) : ScalarBuilder ScalarFunction := do
  f.withOutput (← f.grad i o) "grad_"

theorem withOutput_eq_ok {m : SparseMatrix ScalarId} {front : String} {f' : ScalarFunction}
    (hmake : make g f.inputs [m] (f.options.derived front) = .ok f') :
    f.withOutput m front g = .ok f' g := by
  change ScalarBuilder.ofExcept (make g f.inputs [m] (f.options.derived front)) g = _
  rw [hmake]
  rfl

/-- Any expressions of a graph that has grown can be made the output of a function. -/
theorem Ready.exists_withOutput {h : ScalarGraph} (hr : f.Ready g e tape) (hgrow : g.Grows h)
    {m : SparseMatrix ScalarId} (hhas : ∀ x ∈ m.values, h.Has x) (front : String) :
    ∃ f' tape', f.withOutput m front h = .ok f' h ∧ Makes h e.inputs [m] tape' f' := by
  have hsymbols : ∀ x ∈ handlesOf f.inputs, h.isSymbol x = true := fun x hx =>
    ScalarGraph.isSymbol_grow hgrow (hr.symbols x (hr.inputs_eq ▸ hx))
  have hnodup : (handlesOf f.inputs).Nodup := hr.inputs_eq ▸ hr.nodup
  have hhas : ∀ x ∈ handlesOf [m], h.Has x := fun x hx => hhas x (by simpa [handlesOf] using hx)
  obtain ⟨f', tape', hmake, hmakes⟩ := make_eq_ok (f.options.derived front) hsymbols hnodup hhas
  exact ⟨f', tape', withOutput_eq_ok hmake, hr.inputs_eq ▸ hmakes⟩

/-- The gradient can be made a function, and its partial derivatives are second derivatives. -/
theorem exists_gradientFunction (hr : f.Ready g e tape) (hg : g.Founded) (hi : i < f.inCount)
    (ho : o < f.outCount) (hshape : (f.outPattern o).shape = (1, 1)) :
    ∃ gradient e' tape' h, f.gradientFunction i o g = .ok gradient h ∧ g.Grows h ∧
      gradient.Ready h e' tape' ∧ gradient.inCount = f.inCount ∧ gradient.outCount = 1 ∧
      gradient.inPattern i = f.inPattern i ∧ gradient.outPattern 0 = f.inPattern i ∧
      ∀ {V : Type} [CommRing V] (I : Interpretation V) (ρ : ScalarId → V), I.Exact h →
        ∀ k j, e'.partials h I ρ i 0 k j = e.mixed g I ρ i o k j := by
  obtain ⟨m, h, hrun, hgrow, hpattern, hhas, hvalues⟩ := exists_grad hr hg hi ho hshape
  obtain ⟨gradient, tape', hmake, hmakes⟩ := hr.exists_withOutput hgrow hhas "grad_"
  have hfunction : f.gradientFunction i o g = .ok gradient h := by
    rw [gradientFunction, ScalarBuilder.bind_of_ok hrun]
    exact hmake
  have hpatterns : gradient.inPatterns = f.inPatterns := by
    rw [hmakes.inPatterns, hr.holds.inPatterns]
  have hout : gradient.outPattern 0 = f.inPattern i := by
    rw [outPattern, hmakes.outPatterns]
    exact hpattern
  refine ⟨gradient, _, tape', h, hfunction, hgrow, hmakes.ready, by rw [inCount, hpatterns, inCount],
    by rw [outCount, hmakes.outPatterns]; rfl, by rw [inPattern, hpatterns, inPattern], hout, ?_⟩
  intro V _ I ρ hexact k j
  have hcount : (countsOf [m]).getD 0 0 = (countsOf e.inputs).getD i 0 := by
    rw [← hr.holds.nnz_inPattern, ← hpattern]
    rfl
  rw [Expressions.partials, hcount]
  split
  · rename_i hkj
    have hk : k < (f.inPattern i).nnz := hr.holds.nnz_inPattern ▸ hkj.1
    rw [ScalarGraph.partialIn, ScalarGraph.tangent_eq_snd]
    exact (congrArg TrivSqZeroExt.snd (hvalues I.dual _ hexact.dual k hk)).trans
      (snd_gradient hkj.1 hkj.2)
  · rename_i hkj
    rw [Expressions.mixed, if_neg hkj]

/-! ### Hessians -/

/-- The Jacobian of the gradient, each column of it seeded alone and nothing promised. -/
def plainHess (f : ScalarFunction) (i o : Nat) : ScalarBuilder (SparseMatrix ScalarId) := do
  let gradient ← f.gradientFunction i o
  { gradient with options := { gradient.options with compress := false } }.jac i 0 false false

end ScalarFunction

/-- The value of an entry of a matrix of expressions, zero where none is stored. -/
def ScalarGraph.entry (g : ScalarGraph) (I : Interpretation V) (ρ : ScalarId → V)
    (m : SparseMatrix ScalarId) (r c : Nat) : V :=
  (m.get? r c).elim 0 (g.value I ρ)

namespace ScalarFunction

variable {f : ScalarFunction} {g : ScalarGraph} {e : Expressions} {tape : ScalarTape} {i o : Nat}

/-- A Jacobian has the partial derivatives in the places of the nonzeros, and zeros elsewhere. -/
structure Shows (J : Nat → Nat → V) (output input : Pattern) (compact : Bool)
    (entry : Nat → Nat → V) : Prop where
  place : ∀ k < output.nnz, ∀ j < input.nnz,
    entry (output.place compact k) (input.place compact j) = J k j
  other : ∀ r c, (¬∃ k < output.nnz, output.place compact k = r) ∨
    (¬∃ j < input.nnz, input.place compact j = c) → entry r c = 0

theorem Shows.congr {J J' : Nat → Nat → V} {output input : Pattern} {compact : Bool}
    {entry entry' : Nat → Nat → V} (h : Shows J output input compact entry)
    (h' : Shows J' output input compact entry')
    (hJ : ∀ k < output.nnz, ∀ j < input.nnz, J k j = J' k j) (r c : Nat) :
    entry r c = entry' r c := by
  by_cases hr : ∃ k < output.nnz, output.place compact k = r
  · by_cases hc : ∃ j < input.nnz, input.place compact j = c
    · obtain ⟨k, hk, rfl⟩ := hr
      obtain ⟨j, hj, rfl⟩ := hc
      rw [h.place k hk j hj, h'.place k hk j hj, hJ k hk j hj]
    · rw [h.other r c (.inr hc), h'.other r c (.inr hc)]
  · rw [h.other r c (.inl hr), h'.other r c (.inl hr)]

theorem Shows.comm {J : Nat → Nat → V} {p : Pattern} {compact : Bool} {entry : Nat → Nat → V}
    (h : Shows J p p compact entry) (hJ : ∀ k j, J k j = J j k) (r c : Nat) :
    entry r c = entry c r :=
  have hflipped : Shows (fun k j => J j k) p p compact fun r c => entry c r :=
    ⟨fun k hk j hj => h.place j hj k hk, fun r c hrc => h.other c r hrc.symm⟩
  h.congr hflipped (fun k _ j _ => hJ k j) r c

/-- **Jacobians show their partial derivatives**, as far as these are symmetric if that was promised. All
that they store are expressions of the graph that is left. -/
theorem exists_jac_has (hr : f.Ready g e tape) (hg : g.Founded) (hi : i < f.inCount) (ho : o < f.outCount)
    (compact symmetric : Bool) (hsize : compact = true ∨
      (f.outPattern o).numel < countLimit ∧ (f.inPattern i).numel + 1 < tableLimit) :
    ∃ m h, f.jac i o compact symmetric g = .ok m h ∧ g.Grows h ∧ (∀ x ∈ m.values, h.Has x) ∧
      ∀ {V : Type} [CommRing V] (I : Interpretation V) (ρ : ScalarId → V), I.Exact h →
        (symmetric = true → (f.outPattern o).nnz = (f.inPattern i).nnz →
          ∀ k j, e.partials g I ρ i o k j = e.partials g I ρ i o j k) →
        Shows (e.partials g I ρ i o) (f.outPattern o) (f.inPattern i) compact (h.entry I ρ m) := by
  obtain ⟨p, hp, hrows, hcols, hsupport⟩ := dependencyPattern_eq hr hi ho
  have hq : p.assembledOf (f.outPattern o) (f.inPattern i) compact
      = .ok (p.assembled (f.outPattern o) (f.inPattern i) compact) := if_pos hsize
  -- that there is a Jacobian does not depend on the interpretation
  obtain ⟨m, h, hrun, hgrow, hm, hhas⟩ := yields_jac hr hi ho hp hrows hcols hq
    (hsupport Interpretation.trivial 0) (fun (_ : symmetric = true) _ _ _ => rfl) hg
  refine ⟨m, h, hrun, hgrow, forall_of_forall₂ (hhas.imp fun _ _ hread => hread.1),
    fun I ρ hexact hsymmetric => ?_⟩
  obtain ⟨-, -, hentries⟩ := (yields_jac hr hi ho hp hrows hcols hq (hsupport I ρ)
    (fun htold hsquare => hsymmetric htold (hrows ▸ hcols ▸ hsquare))).of_run hg hrun
  refine ⟨fun k hk j hj =>
    elim_get?_of_holdsEntries hrows hcols hm hentries hexact (hsupport I ρ) hk hj, fun r c hrc => ?_⟩
  rw [ScalarGraph.entry, SparseMatrix.get?, hm, Pattern.find?_assembled_eq_none hrows hcols hrc]
  rfl

theorem exists_jac (hr : f.Ready g e tape) (hg : g.Founded) (hi : i < f.inCount) (ho : o < f.outCount)
    (compact symmetric : Bool) (hsize : compact = true ∨
      (f.outPattern o).numel < countLimit ∧ (f.inPattern i).numel + 1 < tableLimit) :
    ∃ m h, f.jac i o compact symmetric g = .ok m h ∧ g.Grows h ∧
      ∀ {V : Type} [CommRing V] (I : Interpretation V) (ρ : ScalarId → V), I.Exact h →
        (symmetric = true → (f.outPattern o).nnz = (f.inPattern i).nnz →
          ∀ k j, e.partials g I ρ i o k j = e.partials g I ρ i o j k) →
        Shows (e.partials g I ρ i o) (f.outPattern o) (f.inPattern i) compact (h.entry I ρ m) := by
  obtain ⟨m, h, hrun, hgrow, -, hshows⟩ := exists_jac_has hr hg hi ho compact symmetric hsize
  exact ⟨m, h, hrun, hgrow, hshows⟩

/-- Options do not touch what a function is. -/
theorem Ready.withOptions (hr : f.Ready g e tape) (options : FunctionOptions) :
    ({ f with options := options } : ScalarFunction).Ready g e tape :=
  ⟨hr.stage, hr.lives, ⟨hr.holds.1, hr.holds.2, hr.holds.3, hr.holds.4⟩, hr.resides⟩

theorem Ready.grow {h : ScalarGraph} (hr : f.Ready g e tape) (hgrow : g.Grows h) :
    f.Ready h e tape :=
  ⟨hr.stage, by rw [livesIn, hgrow.lineage]; exact hr.lives, hr.holds, hr.resides.grow hgrow⟩

theorem mixed_grow {V : Type} [CommRing V] {I : Interpretation V} {ρ : ScalarId → V}
    {h : ScalarGraph} (hr : f.Ready g e tape) (hgrow : g.Grows h) (k j : Nat) :
    e.mixed h I ρ i o k j = e.mixed g I ρ i o k j := by
  rw [Expressions.mixed, Expressions.mixed]
  refine if_congr Iff.rfl (congrArg List.sum (List.map_congr_left fun l hl => ?_)) rfl
  have hl := List.mem_range.mp (List.mem_filter.mp hl).1
  rw [ScalarGraph.evaluate_grow hgrow (hr.resides.has_output (valueAt_mem_places hl))]

theorem hess_eq (f : ScalarFunction) (i o : Nat) :
    f.hess i o = f.gradientFunction i o >>= fun gradient => gradient.jac i 0 false true := by
  rw [hess, gradientFunction, bind_assoc]

end ScalarFunction

namespace ScalarHistory

variable {gs : GraphId → Option ScalarGraph} {fs : List ScalarFunction}

/-- **Hessians are symmetric**, and equal to the Jacobian of the gradient that is made without
compression and without the promise of symmetry. -/
theorem entries_hess (hist : ScalarHistory gs fs) {f : ScalarFunction} (hf : f ∈ fs)
    {e : ScalarFunction.Expressions} {tape : ScalarTape} (hstage : f.stage = .initialized e tape)
    {id : GraphId} {g k : ScalarGraph} (hg : gs id = some g) (hlives : f.livesIn g = true)
    {i o : Nat} (hi : i < f.inCount) (ho : o < f.outCount) (hshape : (f.outPattern o).shape = (1, 1))
    (hsize : (f.inPattern i).numel + 1 < tableLimit) (hk : g.Grows k) :
    ∃ m h m' h', f.hess i o g = .ok m h ∧ f.plainHess i o k = .ok m' h' ∧
      ∀ {V : Type} [CommRing V] (I : Interpretation V) (ρ : ScalarId → V), I.DividesByInverse →
        I.Exact h → I.Exact h' → f.Lawful e tape I ρ → ∀ r c,
          h.entry I ρ m r c = h.entry I ρ m c r ∧ h.entry I ρ m r c = h'.entry I ρ m' r c := by
  have hr := hist.ready hf hstage hg hlives
  have hfounded := hist.founded hg
  have hsizes : (f.inPattern i).numel < countLimit ∧ (f.inPattern i).numel + 1 < tableLimit :=
    ⟨(Nat.lt_of_succ_lt hsize).trans (by decide), hsize⟩
  obtain ⟨gradient, e₁, tape₁, h₁, hrun₁, hgrow₁, hr₁, hins₁, houts₁, hin₁, hout₁, hpartials₁⟩ :=
    ScalarFunction.exists_gradientFunction hr hfounded hi ho hshape
  obtain ⟨plain, e₂, tape₂, h₂, hrun₂, hgrow₂, hr₂, hins₂, houts₂, hin₂, hout₂, hpartials₂⟩ :=
    ScalarFunction.exists_gradientFunction (hr.grow hk) (hfounded.grow hk) hi ho hshape
  obtain ⟨m, h, hrun, hgrow, hshows⟩ := ScalarFunction.exists_jac hr₁ (hfounded.grow hgrow₁)
    (hins₁ ▸ hi) (houts₁ ▸ Nat.one_pos) false true (.inr (by rwa [hin₁, hout₁]))
  obtain ⟨m', h', hrun', hgrow', hshows'⟩ := ScalarFunction.exists_jac
    (hr₂.withOptions { plain.options with compress := false }) ((hfounded.grow hk).grow hgrow₂)
    (hins₂ ▸ hi) (houts₂ ▸ Nat.one_pos) false false
    (.inr (by
      change (plain.outPattern 0).numel < _ ∧ (plain.inPattern i).numel + 1 < _
      rwa [hin₂, hout₂]))
  refine ⟨m, h, m', h', ?_, ?_, fun I ρ hdiv hexact hexact' hlawful r c => ?_⟩
  · rw [ScalarFunction.hess_eq]
    simp only [bind, EStateM.bind, hrun₁, hrun]
  · rw [ScalarFunction.plainHess]
    simp only [bind, EStateM.bind, hrun₂, hrun']
  have hcomm : ∀ k j, e₁.partials h₁ I ρ i 0 k j = e₁.partials h₁ I ρ i 0 j k := fun k j => by
    have hexact₁ := ScalarGraph.exact_of_grows hgrow hexact
    rw [hpartials₁ I ρ hexact₁, hpartials₁ I ρ hexact₁, ScalarFunction.mixed_comm hr hdiv hlawful]
  have hshown := hshows I ρ hexact fun _ _ => hcomm
  have hshown' := hshows' I ρ hexact' fun htold => absurd htold Bool.false_ne_true
  rw [hout₁, hin₁] at hshown
  change ScalarFunction.Shows _ (plain.outPattern 0) (plain.inPattern i) _ _ at hshown'
  rw [hout₂, hin₂] at hshown'
  refine ⟨hshown.comm hcomm r c, hshown.congr hshown' (fun k _ j _ => ?_) r c⟩
  rw [hpartials₁ I ρ (ScalarGraph.exact_of_grows hgrow hexact),
    hpartials₂ I ρ (ScalarGraph.exact_of_grows hgrow' hexact'), ScalarFunction.mixed_grow hr hk]

end ScalarHistory

/-! ### The Hessian of a product -/

/-- The product has a symmetric Hessian, whether it is made as one or not. -/
theorem Product.entries_hess_product :
    ∃ m h m' h', (functionAt (.initialized expressions tape)).hess 0 0 graph = .ok m h ∧
      (functionAt (.initialized expressions tape)).plainHess 0 0 graph = .ok m' h' ∧
      ∀ {V : Type} [CommRing V] (I : Interpretation V) (ρ : ScalarId → V), I.DividesByInverse →
        I.Exact h → I.Exact h' →
        (functionAt (.initialized expressions tape)).Lawful expressions tape I ρ → ∀ r c,
          h.entry I ρ m r c = h.entry I ρ m c r ∧ h.entry I ρ m r c = h'.entry I ρ m' r c :=
  history.entries_hess (List.mem_cons_self ..) rfl
    (show graphs (.numbered 0) = some graph from Function.update_self ..) (by rfl) (by decide)
    (by decide) (by decide) (by decide) (.refl graph)

end Fluxion
