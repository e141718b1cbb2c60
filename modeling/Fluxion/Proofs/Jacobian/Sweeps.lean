import Fluxion.Proofs.Jacobian.MatrixSeeds
import Fluxion.Proofs.Lifting.Replacing
import Fluxion.Proofs.Matrix.Closing
import Fluxion.Proofs.Room.Sweeping

/-!
# Sweeps over the tape of a function

Seeds of a sweep are expressions on any patterns of the right shapes, or missing. They are read on the
patterns of the inputs or outputs that they are for: entries at other places do not count, and places
without an entry are zero. So a tangent seed is a direction of the inputs, and an adjoint seed gives
weights to the outputs. What a sweep returns is read in the same way.

Everything is evaluated in one graph, which is any graph that the one that the sweep leaves has grown
into. There the results of two sweeps can be compared, in whatever order they were carried out.

## Main definitions

* `MatrixGraph.reading` — what a seed or a result is read as
* `MatrixFunction.seedDirection` — the direction of the inputs that a seed says
* `MatrixFunction.movedArguments` — values of inputs and free symbols that move as a seed says

## Main results

* `MatrixFunction.Ready.moves_forward` — outputs move as a **forward sweep** says
* `MatrixFunction.Ready.balances_reverse` — a **reverse sweep** weighs inputs as the outputs were weighed
* `MatrixFunction.Ready.replay_movedArguments` — how outputs move is how the **closed tape over dual
  numbers** moves
-/

namespace Fluxion

open MatrixBuilder

variable {V : Type} [CommRing V]

/-! ### Reading seeds and results -/

theorem Pattern.elements_zero (p : Pattern) : p.elements (0 : Nat → Nat → V) = List.replicate p.nnz 0 :=
  List.map_const' ..

namespace MatrixGraph

variable {g h : MatrixGraph} {A : Algebra Id V} {given : MatrixId → Option (List V)} {p : Pattern}
  {x : Nat → Nat → V} {t : Option MatrixId} {r c : Nat}

/-- The matrix of an expression that may be missing, zero where nothing is stored. -/
def reading (g : MatrixGraph) (A : Algebra Id V) (given : MatrixId → Option (List V))
    (t : Option MatrixId) (r c : Nat) : V :=
  t.elim 0 fun e => g.elementOf A given e r c

theorem reading_of_grows (hgrow : g.Grows h) (ht : ∀ e, t = some e → Shaped p.shape e g) :
    h.reading A given t = g.reading A given t := by
  cases t with
  | none => rfl
  | some e =>
    obtain ⟨q, hq, -⟩ := ht e rfl
    exact elementOf_of_grows hgrow hq

theorem readsAs_reading (hg : g.WellTyped) (ht : ∀ e, t = some e → Shaped p.shape e g) :
    g.ReadsAs A given t p (g.reading A given t) := by
  cases t with
  | none => exact fun _ _ _ => rfl
  | some e =>
    obtain ⟨q, hq, hshape⟩ := ht e rfl
    exact ⟨q, _, hshape, stores_elementOf hg hq, fun r c _ => congrFun₂ (masked_elementOf hq) r c⟩

theorem AmountsTo.reading_eq (ht : g.AmountsTo A given t p x) (hadmits : g.Admits A given)
    (hrc : (r, c) ∈ p.positions) : g.reading A given t r c = x r c := by
  cases t with
  | none => exact (ht r c hrc).symm
  | some e => exact Stores.elementOf_eq ht hadmits hrc

/-- The nonzeros of what may be missing. -/
theorem AmountsTo.nonzeros (ht : g.AmountsTo A given t p x) (hadmits : g.Admits A given) :
    t.elim (List.replicate p.nnz 0) (g.evaluate A given) = p.elements x := by
  cases t with
  | none =>
    exact (Pattern.elements_zero p).symm.trans (Pattern.elements_congr fun r c h => (ht r c h).symm)
  | some e => exact Stores.values ht hadmits

/-- Two lists of expressions that may be missing, multiplied entry by entry on the patterns that they are
for, and added up. -/
def pairings (g : MatrixGraph) (A : Algebra Id V) (given : MatrixId → Option (List V))
    (ps : List Pattern) (xs ys : List (Option MatrixId)) : V :=
  ∑ i ∈ Finset.range ps.length, (ps.getD i (.empty 0 0)).pairing
    (g.reading A given (xs.getD i none)) (g.reading A given (ys.getD i none))

end MatrixGraph

theorem MatrixTape.Seeds.shaped {g : MatrixGraph} {es : List MatrixId}
    {seeds : List (List (Option MatrixId))} (hseeds : MatrixTape.Seeds es seeds g)
    {seed : List (Option MatrixId)} (hseed : seed ∈ seeds) {i : Nat} {e : MatrixId} {p : Pattern}
    (he : es[i]? = some e) (hp : g.pattern? e = some p) :
    ∀ s, seed.getD i none = some s → Shaped p.shape s g :=
  fun s hs => hseeds seed hseed i s e p hs he hp

namespace MatrixFunction

open MatrixGraph Finset

variable {f : MatrixFunction} {g h k : MatrixGraph} {I : Interpretation V} {tape : MatrixTape}
  {given : MatrixId → Option (List V)} {seed : List (Option MatrixId)} {e : MatrixId} {i : Nat}

/-! ### Forward sweeps -/

/-- The direction of the inputs that a seed says, read on their patterns. -/
def seedDirection (f : MatrixFunction) (k : MatrixGraph) (A : Algebra Id V)
    (given : MatrixId → Option (List V)) (seed : List (Option MatrixId)) : MatrixId → Nat → V :=
  inputDirection f.inputs fun i l =>
    ((f.inPattern i).elements (k.reading A given (seed.getD i none))).getD l 0

section Forward

variable (hf : f.Ready g) (hg : g.Sound I given)
  (hgiven : ∀ e ∈ f.inputs, ∃ values, given e = some values)

include hf hg hgiven

/-- Inputs move as the seed says. -/
theorem Ready.tangentOf_seedDirection (hi : f.inputs.idxOf? e = some i) {r c : Nat}
    (hrc : (r, c) ∈ (f.inPattern i).positions) :
    g.tangentOf I given (f.seedDirection k I.algebra given seed) e r c
      = k.reading I.algebra given (seed.getD i none) r c := by
  have he := getElem?_eq_of_idxOf? hi
  obtain ⟨values, hvalues⟩ := hgiven e (List.mem_of_getElem? he)
  obtain ⟨l, hl⟩ := List.getElem?_of_mem hrc
  have hmoves : g.tangentOf I given (f.seedDirection k I.algebra given seed) e r c
      = f.seedDirection k I.algebra given seed e l :=
    tangentOf_given hvalues hg (hf.pattern?_input he) hl
  rw [hmoves, seedDirection, inputDirection_eq hi, Pattern.getD_elements hl]

theorem Ready.seedMoves (hgk : g.Grows k) {seeds : List (List (Option MatrixId))}
    (hseeds : MatrixTape.Seeds f.inputs seeds g) (hseed : seed ∈ seeds) :
    MatrixTape.SeedMoves g I given f.inputs (f.seedDirection k I.algebra given seed) seed where
  moves i e hi := by
    have he := getElem?_eq_of_idxOf? hi
    have hp := hf.pattern?_input he
    have hshaped := hseeds.shaped hseed he hp
    refine ⟨f.inPattern i, hp, (readsAs_reading hg.typed hshaped).congr fun r c hrc => ?_⟩
    rw [hf.tangentOf_seedDirection hg hgiven hi hrc, reading_of_grows hgk hshaped]
  fixed e he := inputDirection_fixed he _

end Forward

/-- What a forward sweep returns for the outputs is how they move along the direction that the seed
says. -/
def Moves (f : MatrixFunction) (k : MatrixGraph) (I : Interpretation V)
    (given : MatrixId → Option (List V)) (seed row : List (Option MatrixId)) : Prop :=
  ∀ o e, f.outputs[o]? = some e → k.AmountsTo I.algebra given (row.getD o none) (f.outPattern o)
    (k.tangentOf I given (f.seedDirection k I.algebra given seed) e)

/-- Outputs move as a **forward sweep** says. -/
theorem Ready.moves_forward (hf : f.Ready g) (htape : f.tape? = some tape) (hg : g.WellTyped)
    {seeds moved : List (List (Option MatrixId))} (hseeds : MatrixTape.Seeds f.inputs seeds g)
    (hrun : tape.forward f.outputs seeds g = .ok moved h) (hhk : h.Grows k)
    (hr : k.Reliable I given) (hgiven : ∀ e ∈ f.inputs, ∃ values, given e = some values) :
    List.Forall₂ (f.Moves k I given) seeds moved := by
  have hresides := hf.resides tape htape
  have hgk : g.Grows k :=
    ((MatrixTape.keeps_forward hresides.patterned _ _).of_run hg hrun).1.trans hhk
  have hmoves : MatrixTape.AllMove I given f.inputs
      (seeds.map (f.seedDirection k I.algebra given)) seeds g :=
    List.forall₂_map_left_iff.mpr (List.forall₂_same.mpr fun seed hseed hr =>
      hf.seedMoves ⟨hg, hr.admits⟩ hgiven hgk hseeds hseed)
  have hmoved := ((MatrixTape.follows_forward hresides hmoves).of_run hg hrun).2.2
  refine (List.forall₂_map_left_iff.mp (hmoved (hr.of_grows hhk))).imp fun seed row hrow o e he => ?_
  obtain ⟨p, hp, hrow⟩ := hrow o e he
  have hp' := hhk.pattern? hp
  obtain rfl := Option.some.inj (hp'.symm.trans ((hf.grow hgk).pattern?_output he))
  rw [tangentOf_of_grows hhk hp]
  exact hrow.grow hhk

/-- What a forward sweep returns for an output is on the pattern of the output. -/
theorem Ready.patterns_forward (hf : f.Ready g) (htape : f.tape? = some tape) (hg : g.WellTyped)
    {seeds moved : List (List (Option MatrixId))}
    (hrun : tape.forward f.outputs seeds g = .ok moved h) :
    List.Forall₂ (fun _ row => row.length = f.outCount ∧
      ∀ o t, row.getD o none = some t → h.pattern? t = some (f.outPattern o)) seeds moved := by
  have hkept := (MatrixTape.keeps_forward (hf.resides tape htape).patterned f.outputs seeds).of_run
    hg hrun
  obtain ⟨hgh, -, directions, ⟨hlength, htyped⟩, rfl⟩ := hkept
  refine List.forall₂_map_right_iff.mpr
    (List.forall₂_iff_get.mpr ⟨hlength.symm, fun d _ hd => ⟨List.length_map _, fun o t ht => ?_⟩⟩)
  rw [List.getD_eq_getElem?_getD, List.getElem?_map] at ht
  cases he : f.outputs[o]? with
  | none => rw [he] at ht; contradiction
  | some e =>
    rw [he] at ht
    exact (htyped _ (List.get_mem ..)).on ht ((hf.grow hgh).pattern?_output he)

/-! ### Reverse sweeps -/

/-- What a reverse sweep returns weighs the inputs as the seed weighs the outputs: along every direction
in which nothing but the inputs moves, the two balance. -/
def Balances (f : MatrixFunction) (k : MatrixGraph) (I : Interpretation V)
    (given : MatrixId → Option (List V)) (seed row : List (Option MatrixId)) : Prop :=
  ∀ dx : MatrixId → Nat → V, (∀ e, f.inputs.idxOf? e = none → dx e = 0) →
    ∑ i ∈ range f.inCount, f.inputs[i]?.elim 0 (fun e => (f.inPattern i).pairing
        (k.reading I.algebra given (row.getD i none)) (k.tangentOf I given dx e))
      = ∑ o ∈ range f.outCount, f.outputs[o]?.elim 0 fun e => (f.outPattern o).pairing
        (k.reading I.algebra given (seed.getD o none)) (k.tangentOf I given dx e)

/-- A **reverse sweep** balances. -/
theorem Ready.balances_reverse (hf : f.Ready g) (htape : f.tape? = some tape) (hg : g.WellTyped)
    (hcompiled : g.RoutinesCompiled) {seeds weighed : List (List (Option MatrixId))}
    (hseeds : MatrixTape.Seeds f.outputs seeds g)
    (hrun : tape.reverse f.inputs seeds g = .ok weighed h) (hhk : h.Grows k)
    (hr : k.Reliable I given) :
    List.Forall₂ (f.Balances k I given) seeds weighed := by
  have hresides := hf.resides tape htape
  have hgh : g.Grows h := ((MatrixTape.keeps_reverse hresides.patterned _ _).of_run hg hrun).1
  have hgk := hgh.trans hhk
  have hweighs : MatrixTape.AllWeigh I given f.outputs
      (seeds.map fun seed o => k.reading I.algebra given (seed.getD o none)) seeds g := by
    refine List.forall₂_map_left_iff.mpr (List.forall₂_same.mpr fun seed hseed _ o e he => ?_)
    have hp := hf.pattern?_output he
    have hshaped := hseeds.shaped hseed he hp
    refine ⟨f.outPattern o, hp, ?_⟩
    dsimp only
    rw [reading_of_grows hgk hshaped]
    exact readsAs_reading hg hshaped
  have hrows := ((MatrixTape.balances_reverse hresides hcompiled hweighs).of_run hg hrun).2.2
  refine (List.forall₂_map_left_iff.mp (hrows (hr.of_grows hhk))).imp fun seed row hrow dx hdx => ?_
  obtain ⟨adj, hadj, htotal⟩ := hrow
  have hinputs : ∀ F : MatrixId → V, (f.inputs.map F).sum
      = ∑ i ∈ range f.inCount, f.inputs[i]?.elim 0 F := fun F => by
    conv_lhs => rw [← List.zipIdx_map_fst 0 f.inputs, List.map_map]
    exact sum_map_zipIdx f.inputs fun ei => F ei.1
  have htotal := htotal dx hdx
  rw [hinputs, sum_map_zipIdx] at htotal
  refine Eq.trans (sum_congr rfl fun i _ => ?_) (htotal.trans (sum_congr rfl fun o _ => ?_))
  · cases he : f.inputs[i]? with
    | none => rfl
    | some e =>
      have hp := hf.pattern?_input he
      have hamounts := (hadj i e _ he hp).grow hhk
      rw [Option.elim_some, Option.elim_some, patternIn_eq hp, tangentOf_of_grows hgk hp]
      exact Pattern.pairing_congr (fun r c hrc => hamounts.reading_eq hr.admits hrc) fun _ _ _ => rfl
  · cases he : f.outputs[o]? with
    | none => rfl
    | some e =>
      have hp := hf.pattern?_output he
      rw [Option.elim_some, Option.elim_some, patternIn_eq hp, tangentOf_of_grows hgk hp]

/-- If outputs move as a forward sweep says and a reverse sweep balances, the two are transposes of each
other: adjoint seeds, paired with how the outputs move, are tangent seeds, paired with the derivatives in
the inputs. -/
theorem Ready.pairings_eq (hf : f.Ready k) (htape : f.tape? = some tape) (hk : k.Sound I given)
    (hgiven : ∀ e ∈ f.inputs, ∃ values, given e = some values)
    {tangents adjoints moved weighed : List (List (Option MatrixId))}
    (hmoved : List.Forall₂ (f.Moves k I given) tangents moved)
    (hweighed : List.Forall₂ (f.Balances k I given) adjoints weighed) :
    List.Forall₂ (fun adjoint weights => List.Forall₂ (fun tangent movement =>
      k.pairings I.algebra given f.outPatterns adjoint movement
        = k.pairings I.algebra given f.inPatterns weights tangent) tangents moved)
      adjoints weighed := by
  refine hweighed.imp fun adjoint weights hbalance => hmoved.imp fun tangent movement hmoves => ?_
  have hbalance := hbalance (f.seedDirection k I.algebra given tangent)
    fun e he => inputDirection_fixed he _
  rw [pairings, pairings, hf.inCount_eq, hf.outCount_eq]
  refine Eq.trans (sum_congr rfl fun o ho => ?_) (hbalance.symm.trans (sum_congr rfl fun i hi => ?_))
  · have ho : o < f.outputs.length := mem_range.mp ho
    have he : f.outputs[o]? = some f.outputs[o] := List.getElem?_eq_getElem ho
    rw [he]
    exact Pattern.pairing_congr (fun _ _ _ => rfl) fun r c hrc =>
      (hmoves o _ he).reading_eq hk.admits hrc
  · have hi : i < f.inputs.length := mem_range.mp hi
    have he : f.inputs[i]? = some f.inputs[i] := List.getElem?_eq_getElem hi
    rw [he]
    exact Pattern.pairing_congr (fun _ _ _ => rfl) fun r c hrc =>
      hf.tangentOf_seedDirection hk hgiven (idxOf?_of_getElem? (hf.resides tape htape).nodup he) hrc

/-! ### Tapes over dual numbers -/

/-- Values of the inputs that move as a seed says, which is read on their patterns, and after them those
of the free symbols, which do not move. -/
def movedArguments (f : MatrixFunction) (tape : MatrixTape) (k : MatrixGraph) (A : Algebra Id V)
    (given : MatrixId → Option (List V)) (seed : List (Option MatrixId)) : Bundle (DualNumber V) :=
  .dual ((f.inputs ++ tape.freeSymbols).map (k.evaluate A given))
    ((f.inputs.zipIdx.map fun ei =>
        (f.inPattern ei.2).elements (k.reading A given (seed.getD ei.2 none)))
      ++ tape.freeSymbols.map fun e => List.replicate (MatrixTape.patternIn k e).nnz 0)

theorem Ready.movedArguments_eq (hf : f.Ready k) (htape : f.tape? = some tape) (hk : k.Sound I given)
    (hgiven : ∀ e ∈ f.inputs, ∃ values, given e = some values) :
    f.movedArguments tape k I.algebra given seed = (f.inputs ++ tape.freeSymbols).map
      (k.evaluate I.dualAlgebra (moving given (f.seedDirection k I.algebra given seed))) := by
  have hresides := hf.resides tape htape
  rw [← Bundle.dual_map (List.map _ _), movedArguments, List.map_map, List.map_map]
  refine congrArg₂ _ (List.map_congr_left fun e _ => (map_fst_evaluate _ e).symm) ?_
  rw [List.map_append]
  refine congrArg₂ _ (List.ext_getElem? fun i => ?_) (List.map_congr_left fun e he => ?_)
  · rw [List.getElem?_map, List.getElem?_map, List.getElem?_zipIdx]
    cases he : f.inputs[i]? with
    | none => rfl
    | some e =>
      have hi := idxOf?_of_getElem? hresides.nodup he
      rw [Option.map_some, Option.map_some, Option.map_some, Nat.zero_add, Function.comp_apply,
        map_snd_evaluate hk (hf.pattern?_input he)]
      exact congrArg some (Pattern.elements_congr fun r c hrc =>
        (hf.tangentOf_seedDirection hk hgiven hi hrc).symm)
  · obtain ⟨hsymbol, hinput⟩ := hresides.free e he
    obtain ⟨serial, q, hn, -⟩ := hk.typed.exists_symbol hsymbol
    obtain ⟨p, hp, -⟩ := hk.typed.exists_typed hn
    have hfixed : f.seedDirection k I.algebra given seed e = 0 :=
      inputDirection_fixed (List.idxOf?_eq_none_iff.mpr hinput) _
    rw [Function.comp_apply, map_snd_evaluate hk hp, patternIn_eq hp,
      tangentOf_free hk hn hp hfixed, Pattern.elements_zero]

/-- How outputs move is how the **closed tape over dual numbers** moves. -/
theorem Ready.replay_movedArguments (hf : f.Ready k) (htape : f.tape? = some tape)
    (hk : k.Sound I given) (hgiven : ∀ e ∈ f.inputs, ∃ values, given e = some values) {o : Nat}
    (ho : f.outputs[o]? = some e) :
    ((Id.run ((tape.close f.inCount).replay I.dualAlgebra
        (f.movedArguments tape k I.algebra given seed) f.outCount)).getD o []).map TrivSqZeroExt.snd
      = (f.outPattern o).elements
        (k.tangentOf I given (f.seedDirection k I.algebra given seed) e) := by
  have hreplay := (hf.resides tape htape).replay_close I.dualAlgebra
    (hk.admits.moving (f.seedDirection k I.algebra given seed)).symbols
  rw [hf.movedArguments_eq htape hk hgiven, inCount, outCount, hreplay,
    getD_of_getElem? (by rw [List.getElem?_map, ho]; rfl)]
  exact map_snd_evaluate hk (hf.pattern?_output ho) _

end MatrixFunction

end Fluxion
