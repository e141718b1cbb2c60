import Fluxion.Proofs.Jacobian.Sweeps
import Fluxion.Proofs.Room.Requests

/-!
# Sweeps after every history

Whatever graphs have been asked for, sweeps over the tape of an initialized function can be carried out
in every graph that passes the check of ownership, on seeds of the right shapes. A forward sweep computes
the derivatives that the tape has over dual numbers, each on the pattern of its output, and a reverse
sweep is the transpose of a forward sweep.

Both are said of all values that symbols can have, of free symbols as of inputs, and of seeds on any
patterns. What seeds and results are is found by evaluating them in the graph that is left in the end, so
seeds may depend on the inputs, too. In that graph the constants that were folded have to be exact, and
those that were folded when derivative functions of embedded functions were made.

## Main definitions

* `MatrixFunction.Sweeps` — a forward and a reverse sweep, one after the other

## Main results

* `MatrixHistory.tangents_forward` — **forward sweeps compute formal derivatives**
* `LinkedHistory.pairings_sweeps` — **reverse sweeps are transposes of forward sweeps**
-/

namespace Fluxion

open MatrixBuilder MatrixGraph

section Histories

variable {gs : GraphId → Option MatrixGraph} {fs : List MatrixFunction} {f : MatrixFunction}
  {tape : MatrixTape} {i : GraphId} {g : MatrixGraph}

theorem MatrixFunction.Ready.exists_assigned (hf : f.Ready g) (htape : f.tape? = some tape)
    {V : Type} (ρ : MatrixId → Nat → V) :
    ∀ e ∈ f.inputs, ∃ values, g.assigned ρ e = some values :=
  fun e he => MatrixGraph.exists_assigned ((hf.resides tape htape).symbols e he)

/-! ### Forward sweeps -/

/-- **Forward sweeps compute formal derivatives.** On seeds of the shapes of the inputs a sweep succeeds
if there is room. What it returns for an output is on the pattern of the output. Whatever the symbols
are, its nonzeros are the derivatives that the tape has over dual numbers when inputs move as the seed
says, and where nothing is returned they are zero. -/
theorem MatrixHistory.tangents_forward (hist : MatrixHistory gs fs) (hf : f ∈ fs)
    (htape : f.tape? = some tape) (hg : gs i = some g) (hlives : f.livesIn g = true)
    {seeds : List (List (Option MatrixId))} (hseeds : MatrixTape.Seeds f.inputs seeds g) :
    (g.Roomy → ∃ moved h, tape.forward f.outputs seeds g = .ok moved h) ∧
    ∀ moved h, tape.forward f.outputs seeds g = .ok moved h →
      List.Forall₂ (fun seed row => row.length = f.outCount ∧ ∀ o < f.outCount,
        (∀ t, row.getD o none = some t → h.pattern? t = some (f.outPattern o)) ∧
        ∀ (V : Type) [CommRing V] (I : Interpretation V) (ρ : MatrixId → Nat → V),
          I.algebra.Exact h.folds → h.DerivedExact I.algebra →
          (row.getD o none).elim (List.replicate (f.outPattern o).nnz 0)
              (h.evaluate I.algebra (h.assigned ρ))
            = ((Id.run ((tape.close f.inCount).replay I.algebra.dual
                (f.movedArguments tape h I.algebra (h.assigned ρ) seed) f.outCount)).getD o []).map
              TrivSqZeroExt.snd)
        seeds moved := by
  have hready := hist.ready hf hg hlives
  have htyped := hist.invariant.2.1 i g hg
  have hresides := hready.resides tape htape
  refine ⟨fun hroomy => ?_, fun moved h hrun => ?_⟩
  · exact MatrixFunction.exists_of_yields
      (MatrixTape.succeeds_forward hresides hready.known_inputs hseeds hroomy) htyped
  · obtain ⟨hgh, hh, -⟩ := (MatrixTape.keeps_forward hresides.patterned _ _).of_run htyped hrun
    have hready' := hready.grow hgh
    obtain ⟨hlength, hpatterns⟩ :=
      List.forall₂_iff_get.mp (hready.patterns_forward htape htyped hrun)
    refine List.forall₂_iff_get.mpr ⟨hlength, fun d hd hd' => ⟨(hpatterns d hd hd').1, fun o ho =>
      ⟨(hpatterns d hd hd').2 o, fun V _ I ρ hexact hderived => ?_⟩⟩⟩
    have hadmits : h.Admits I.algebra (h.assigned ρ) := admits_assigned hexact
    have hgiven := hready'.exists_assigned htape ρ
    have hmoves := hready.moves_forward htape htyped hseeds hrun (.refl h) ⟨hadmits, hderived⟩ hgiven
    have he : f.outputs[o]? = some (f.outputs.get ⟨o, ho⟩) := List.getElem?_eq_getElem ho
    rw [((List.forall₂_iff_get.mp hmoves).2 d hd hd' o _ he).nonzeros hadmits, ← I.dualAlgebra_eq,
      hready'.replay_movedArguments htape ⟨hh, hadmits⟩ hgiven he]

/-! ### Transposition -/

/-- A forward and a reverse sweep over the tape of a function, one after the other in either order. The
second one starts in the graph that the first one leaves, and there its seeds have to be. -/
inductive MatrixFunction.Sweeps (f : MatrixFunction) (tape : MatrixTape) (g : MatrixGraph)
    (tangents adjoints moved weighed : List (List (Option MatrixId))) : MatrixGraph → Prop
  | forwardFirst {h k} : MatrixTape.Seeds f.inputs tangents g →
      tape.forward f.outputs tangents g = .ok moved h → MatrixTape.Seeds f.outputs adjoints h →
      tape.reverse f.inputs adjoints h = .ok weighed k →
      Sweeps f tape g tangents adjoints moved weighed k
  | reverseFirst {h k} : MatrixTape.Seeds f.outputs adjoints g →
      tape.reverse f.inputs adjoints g = .ok weighed h → MatrixTape.Seeds f.inputs tangents h →
      tape.forward f.outputs tangents h = .ok moved k →
      Sweeps f tape g tangents adjoints moved weighed k

/-- **Reverse sweeps are transposes of forward sweeps.** On seeds of the right shapes both succeed if
there is room. Whatever the symbols are, adjoint seeds, multiplied entry by entry with how the outputs
move, add up to what tangent seeds do with the derivatives in the inputs, for every two of the
directions: seeds are read on the patterns of inputs and outputs, and what is missing is zero. -/
theorem LinkedHistory.pairings_sweeps (hist : LinkedHistory gs fs) (hf : f ∈ fs)
    (htape : f.tape? = some tape) (hg : gs i = some g) (hlives : f.livesIn g = true)
    (tangents adjoints : List (List (Option MatrixId))) :
    (g.Roomy → MatrixTape.Seeds f.inputs tangents g → MatrixTape.Seeds f.outputs adjoints g →
      ∃ moved weighed k, f.Sweeps tape g tangents adjoints moved weighed k) ∧
    ∀ moved weighed k, f.Sweeps tape g tangents adjoints moved weighed k →
      ∀ (V : Type) [CommRing V] (I : Interpretation V) (ρ : MatrixId → Nat → V),
        I.algebra.Exact k.folds → k.DerivedExact I.algebra →
        List.Forall₂ (fun adjoint weights => List.Forall₂ (fun tangent movement =>
          k.pairings I.algebra (k.assigned ρ) f.outPatterns adjoint movement
            = k.pairings I.algebra (k.assigned ρ) f.inPatterns weights tangent) tangents moved)
          adjoints weighed := by
  have hready := hist.history.ready hf hg hlives
  have htyped := hist.history.invariant.2.1 i g hg
  have hcompiled := hist.routinesCompiled i g hg
  have hresides := hready.resides tape htape
  refine ⟨fun hroomy htangents hadjoints => ?_, fun moved weighed k hsweeps V _ I ρ hexact hderived => ?_⟩
  · obtain ⟨moved, h, hforward, hgh, hh, hroomy', -⟩ :=
      MatrixTape.succeeds_forward hresides hready.known_inputs htangents hroomy htyped
    have hadjoints' := hadjoints.grow hready.known_outputs hgh
    obtain ⟨weighed, k, hreverse, -⟩ := MatrixTape.succeeds_reverse (hresides.grow hgh)
      (hready.grow hgh).known_outputs hadjoints' hroomy' hh
    exact ⟨moved, weighed, k, .forwardFirst htangents hforward hadjoints' hreverse⟩
  · have hr : k.Reliable I (k.assigned ρ) := ⟨admits_assigned hexact, hderived⟩
    cases hsweeps with
    | @forwardFirst h _ htangents hforward hadjoints hreverse =>
      obtain ⟨hgh, hh, -⟩ := (MatrixTape.keeps_forward hresides.patterned _ _).of_run htyped hforward
      obtain ⟨hhk, hk, -⟩ := (MatrixTape.keeps_reverse (hresides.grow hgh).patterned _ _).of_run hh
        hreverse
      have hready' := hready.grow (hgh.trans hhk)
      have hgiven := hready'.exists_assigned htape ρ
      have hcompiled' := MatrixTape.keepsCompiled_forward tape f.outputs tangents g hcompiled
      rw [hforward] at hcompiled'
      exact hready'.pairings_eq htape ⟨hk, hr.admits⟩ hgiven
        (hready.moves_forward htape htyped htangents hforward hhk hr hgiven)
        ((hready.grow hgh).balances_reverse htape hh hcompiled' hadjoints hreverse (.refl k) hr)
    | @reverseFirst h _ hadjoints hreverse htangents hforward =>
      obtain ⟨hgh, hh, -⟩ := (MatrixTape.keeps_reverse hresides.patterned _ _).of_run htyped hreverse
      obtain ⟨hhk, hk, -⟩ := (MatrixTape.keeps_forward (hresides.grow hgh).patterned _ _).of_run hh
        hforward
      have hready' := hready.grow (hgh.trans hhk)
      have hgiven := hready'.exists_assigned htape ρ
      exact hready'.pairings_eq htape ⟨hk, hr.admits⟩ hgiven
        ((hready.grow hgh).moves_forward htape hh htangents hforward (.refl k) hr hgiven)
        (hready.balances_reverse htape htyped hcompiled hadjoints hreverse hhk hr)

end Histories

/-! ### A scaled square -/

namespace ScaledSquare

/-- A column, a free scalar, the scalar times the column, that times the column again, and a column of
which only the second element is stored. -/
def requests : List MatrixRequest :=
  [.symbol "x" (.denseColumn 2), .symbol "p" .scalar, .binary .mul ⟨1⟩ ⟨0⟩, .binary .mul ⟨2⟩ ⟨0⟩,
    .symbol "d" (.ofPositions 2 1 [(1, 0)])]

def graph : MatrixGraph := requests.foldl (fun g r => r.after g) (.new (.numbered 0))

/-- The scaled square as a function of the column. -/
def tape : MatrixTape where
  instrs := [⟨.free 0, [], some 0, .scalar, ⟨1⟩⟩, ⟨.input 0, [], some 1, .denseColumn 2, ⟨0⟩⟩,
    ⟨.binary .mul, [0, 1], some 0, .denseColumn 2, ⟨2⟩⟩,
    ⟨.binary .mul, [0, 1], some 1, .denseColumn 2, ⟨3⟩⟩,
    ⟨.output 0, [1], none, .denseColumn 2, ⟨3⟩⟩]
  freeSymbols := [⟨1⟩]
  freeNames := ["p"]
  workSize := 2

def functionWith (tape? : Option MatrixTape) : MatrixFunction where
  options := {}
  owner := ⟨.numbered 0, 3⟩
  inputs := [⟨0⟩]
  outputs := [⟨3⟩]
  inPatterns := [.denseColumn 2]
  outPatterns := [.denseColumn 2]
  inNames := ["x"]
  tape? := tape?

theorem history : LinkedHistory (Function.update (fun _ => none) (.numbered 0) (some graph))
    [functionWith (some tape), functionWith none] := by
  have hgraph := @LinkedHistory.afterAll _ _ _ _ requests (by decide)
    (by simp [requests, MatrixRequest.object?]) (.new (.numbered 0) .start rfl)
  have hdeclared := hgraph.declare (i := .numbered 0) (Function.update_self ..)
    (show MatrixFunction.declare graph [⟨0⟩] [⟨3⟩] {} = .ok (functionWith none) from rfl)
  exact .init hdeclared (i := .numbered 0) (Function.update_self ..) (List.mem_singleton_self _)
    (show (functionWith none).init graph = .ok (functionWith (some tape)) from rfl)

/-- A reading in the integers. -/
def integers : Interpretation Int where
  literal v := if v = 1.0 then 1 else if v = -1.0 then -1 else 0
  function _ x := x
  quotient x _ := x
  power x y := x ^ y.toNat
  literal_zero := by decide
  literal_one := by decide
  literal_negOne := by decide
  zero_quotient _ := rfl
  quotient_one _ := rfl
  power_zero x := pow_zero x
  power_one x := pow_one x

/-- The column is `(3, 4)`, the scalar is `5`, and the element is `7`. -/
def values (e : MatrixId) (k : Nat) : Int := ([[3, 4], [5], [], [], [7]].getD e.index []).getD k 0

/-- The column moves by the element, or not at all. -/
def tangents : List (List (Option MatrixId)) := [[some ⟨4⟩], [none]]

/-- The result is weighed by the column, or by the element. -/
def adjoints : List (List (Option MatrixId)) := [[some ⟨0⟩], [some ⟨4⟩]]

/-- The graph that a request leaves. -/
def graphAfter {α : Type} (x : MatrixBuilder α) (g : MatrixGraph) : MatrixGraph :=
  match x g with
  | .ok _ h | .error _ h => h

theorem eq_ok_of_run' {α : Type} {x : MatrixBuilder α} {g : MatrixGraph} {a : α}
    (hx : x.run' g = some a) : x g = .ok a (graphAfter x g) := by
  delta EStateM.run' EStateM.run at hx
  rw [graphAfter]
  cases hrun : x g with
  | ok b h =>
    rw [hrun] at hx
    rw [Option.some.inj hx]
  | error e h =>
    rw [hrun] at hx
    contradiction

/-- The graph after a forward sweep, and after a reverse sweep in that one. -/
def swept : MatrixGraph := graphAfter (tape.forward [⟨3⟩] tangents) graph

def sweptBack : MatrixGraph := graphAfter (tape.reverse [⟨0⟩] adjoints) swept

theorem forward_eq : tape.forward [⟨3⟩] tangents graph = .ok [[some ⟨9⟩], [none]] swept :=
  eq_ok_of_run' (by decide +kernel)

theorem reverse_eq : tape.reverse [⟨0⟩] adjoints swept = .ok [[some ⟨15⟩], [some ⟨19⟩]] sweptBack :=
  eq_ok_of_run' (by decide +kernel)

/-- Seeds for the only input or output, in a graph that has them. -/
theorem seeds_of_shaped {g : MatrixGraph} {e : MatrixId} (hp : g.pattern? e = some (.denseColumn 2))
    {seeds : List (List (Option MatrixId))}
    (hseeds : ∀ seed ∈ seeds, ∀ s, seed.getD 0 none = some s → Shaped (2, 1) s g) :
    MatrixTape.Seeds [e] seeds g := by
  intro seed hseed i s e' p hs he hp'
  match i with
  | i + 1 => contradiction
  | 0 =>
    obtain rfl := Option.some.inj he
    obtain rfl := Option.some.inj (hp.symm.trans hp')
    exact hseeds seed hseed s hs

theorem seeds_tangents : MatrixTape.Seeds [⟨0⟩] tangents graph := by
  refine seeds_of_shaped rfl ?_
  simp only [tangents, List.forall_mem_cons]
  exact ⟨fun s hs => Option.some.inj hs ▸ ⟨_, rfl, rfl⟩, fun s hs => by contradiction, by simp⟩

theorem seeds_adjoints : MatrixTape.Seeds [⟨3⟩] adjoints swept := by
  refine seeds_of_shaped (by decide +kernel) ?_
  simp only [adjoints, List.forall_mem_cons]
  exact ⟨fun s hs => Option.some.inj hs ▸ ⟨.denseColumn 2, by decide +kernel, rfl⟩,
    fun s hs => Option.some.inj hs ▸ ⟨.ofPositions 2 1 [(1, 0)], by decide +kernel, rfl⟩, by simp⟩

theorem derivedExact_of_nil {g : MatrixGraph} (hg : g.derived = []) :
    g.DerivedExact integers.algebra := by
  intro e r arguments o d _ _ hd
  rw [hg] at hd
  contradiction

/-- Along the element the scaled square moves by twice the scalar times the column times the element,
where that is stored. -/
theorem tangents_forward_integers :
    tape.forward [⟨3⟩] tangents graph = .ok [[some ⟨9⟩], [none]] swept ∧
      swept.pattern? ⟨9⟩ = some (.denseColumn 2) ∧
      swept.evaluate integers.algebra (swept.assigned values) ⟨9⟩ = [0, 280] := by
  obtain ⟨-, hall⟩ := history.history.tangents_forward (i := .numbered 0) (List.mem_cons_self ..) rfl
    (Function.update_self ..) rfl seeds_tangents
  have hfolds : swept.folds = [] := by decide +kernel
  have hderived : swept.derived = [] := by decide +kernel
  cases hall _ _ forward_eq with
  | cons hfirst _ =>
    obtain ⟨hpattern, hvalues⟩ := hfirst.2 0 Nat.one_pos
    have hvalues := hvalues Int integers values
      (by rw [hfolds]; exact fun _ h => absurd h List.not_mem_nil) (derivedExact_of_nil hderived)
    rw [List.getD_cons_zero, Option.elim_some] at hvalues
    refine ⟨forward_eq, hpattern _ rfl, ?_⟩
    rw [hvalues]
    decide +kernel

/-- Weighed by the column, the scaled square moves by the same as the column, weighed by the derivative. -/
theorem pairings_sweeps_integers :
    (functionWith (some tape)).Sweeps tape graph tangents adjoints [[some ⟨9⟩], [none]]
        [[some ⟨15⟩], [some ⟨19⟩]] sweptBack ∧
      sweptBack.pairings integers.algebra (sweptBack.assigned values) [.denseColumn 2] [some ⟨0⟩]
        [some ⟨9⟩] = 1120 ∧
      sweptBack.pairings integers.algebra (sweptBack.assigned values) [.denseColumn 2] [some ⟨15⟩]
        [some ⟨4⟩] = 1120 := by
  have hsweeps : (functionWith (some tape)).Sweeps tape graph tangents adjoints [[some ⟨9⟩], [none]]
      [[some ⟨15⟩], [some ⟨19⟩]] sweptBack :=
    .forwardFirst seeds_tangents forward_eq seeds_adjoints reverse_eq
  obtain ⟨-, hall⟩ := history.pairings_sweeps (i := .numbered 0) (List.mem_cons_self ..) rfl
    (Function.update_self ..) rfl tangents adjoints
  have hfolds : sweptBack.folds = [] := by decide +kernel
  have hderived : sweptBack.derived = [] := by decide +kernel
  have hpairs := hall _ _ _ hsweeps Int integers values
    (by rw [hfolds]; exact fun _ h => absurd h List.not_mem_nil) (derivedExact_of_nil hderived)
  have houtputs : sweptBack.pairings integers.algebra (sweptBack.assigned values) [.denseColumn 2]
      [some ⟨0⟩] [some ⟨9⟩] = 1120 := by decide +kernel
  cases hpairs with
  | cons hfirst _ =>
    cases hfirst with
    | cons hpair _ => exact ⟨hsweeps, houtputs, hpair.symm.trans houtputs⟩

end ScaledSquare

end Fluxion
