import Fluxion.Proofs.History.Matrix
import Fluxion.Proofs.Matrix.Checked
import Fluxion.Proofs.Matrix.Embedding

/-!
# Histories with embedded functions

A matrix graph can embed any scalar function that has a tape, and scalar functions have histories of
their own. In a *linked* history of matrix graphs every function that is called stems from a history of
scalar graphs. So whatever is asked for, all embedded routines were compiled from scalar expressions,
derivative functions that sweeps embed included.

Then the outputs of a compiled tape are what the rules say, down to the scalar expressions that
embedded routines were compiled from, and running the tape misses nothing.

## Main definitions

* `FunctionObject.Stems` — functions that there can be
* `LinkedHistory` — what matrix graphs and functions there can be, with embedded functions

## Main results

* `LinkedHistory.routinesCompiled` — all embedded routines were compiled
* `LinkedHistory.denotes_replay` — **compiled tapes compute what the rules say**
-/

namespace Fluxion

/-! ### Functions that can be embedded -/

/-- The function has a history. -/
def FunctionObject.Stems (o : FunctionObject) : Prop :=
  ∃ gs fs, ScalarHistory gs fs ∧ o.function ∈ fs

theorem ScalarHistory.isCompiled {gs : GraphId → Option ScalarGraph} {fs : List ScalarFunction}
    (hist : ScalarHistory gs fs) : ∀ f ∈ fs, f.IsCompiled := by
  induction hist with
  | start => simp
  | new _ _ _ ih | fork _ _ _ _ ih | grow _ _ _ ih => exact ih
  | declare _ _ hf ih => exact List.forall_mem_cons.mpr ⟨ScalarFunction.isCompiled_declare hf, ih⟩
  | init _ _ hf hinit ih =>
    exact List.forall_mem_cons.mpr ⟨ScalarFunction.isCompiled_init (ih _ hf) hinit, ih⟩
  | clear _ hf hclear ih =>
    exact List.forall_mem_cons.mpr ⟨ScalarFunction.isCompiled_clear (ih _ hf) hclear, ih⟩
  | settle _ _ hf ih => exact List.forall_mem_cons.mpr ⟨ScalarFunction.isCompiled_settle (ih _ hf), ih⟩

/-! ### Requests -/

namespace MatrixRequest

open MatrixBuilder

/-- The function that a request embeds, if it embeds one. -/
def object? : MatrixRequest → Option FunctionObject
  | call o _ => some o
  | _ => none

theorem keepsCompiled_nothing {α : Type} {x : MatrixBuilder α} (hx : KeepsCompiled x) :
    KeepsCompiled (do let _ ← x; return [] : MatrixBuilder (List MatrixFunction)) :=
  hx.bind fun _ => keepsCompiled_pure _

/-- **Routines stay compiled**, if a function that is called was. -/
theorem keepsCompiled_run (r : MatrixRequest)
    (hobject : ∀ o, r.object? = some o → o.function.IsCompiled) : KeepsCompiled r.run := by
  cases r with
  | symbol name p => exact keepsCompiled_nothing (keepsCompiled_symbol name p)
  | constant m => exact keepsCompiled_nothing (keepsCompiled_constant m)
  | fill p v => exact keepsCompiled_nothing (keepsCompiled_fill p v)
  | project a p => exact keepsCompiled_nothing (keepsCompiled_project a p)
  | densify a => exact keepsCompiled_nothing (keepsCompiled_densify a)
  | unary op a => exact keepsCompiled_nothing (keepsCompiled_unary op a)
  | binary op a b => exact keepsCompiled_nothing (keepsCompiled_binary op a b)
  | product a b => exact keepsCompiled_nothing (keepsCompiled_product a b)
  | transpose a => exact keepsCompiled_nothing (keepsCompiled_transpose a)
  | vertcat parts => exact keepsCompiled_nothing (keepsCompiled_vertcat parts)
  | horzcat parts => exact keepsCompiled_nothing (keepsCompiled_horzcat parts)
  | element a r c => exact keepsCompiled_nothing (keepsCompiled_element a r c)
  | nonzeros a numbers => exact keepsCompiled_nothing (keepsCompiled_nonzeros a numbers)
  | sum a => exact keepsCompiled_nothing (keepsCompiled_sum a)
  | lift value guess => exact keepsCompiled_nothing (keepsCompiled_lift value guess)
  | call o arguments => exact keepsCompiled_nothing (keepsCompiled_call (hobject o rfl) arguments)
  | jac f i o compact symmetric =>
    exact keepsCompiled_nothing (f.keepsCompiled_jac i o compact symmetric)
  | grad f i o => exact keepsCompiled_nothing (f.keepsCompiled_grad i o)
  | tang f i o => exact keepsCompiled_nothing (f.keepsCompiled_tang i o)
  | hess f i o => exact keepsCompiled_nothing (f.keepsCompiled_hess i o)
  | jacobian f i o compact symmetric =>
    exact (f.keepsCompiled_jacobian i o compact symmetric).bind fun _ => keepsCompiled_pure _
  | liftingFunctions f => exact f.keepsCompiled_liftingFunctions.bind fun _ => keepsCompiled_pure _

end MatrixRequest

/-! ### Histories -/

/-- Matrix graphs by identity, and functions, after any number of requests in which all functions that
are embedded have histories. -/
inductive LinkedHistory : (GraphId → Option MatrixGraph) → List MatrixFunction → Prop
  | start : LinkedHistory (fun _ => none) []
  | new {gs fs} (id : GraphId) : LinkedHistory gs fs → gs id = none →
      LinkedHistory (Function.update gs id (some (.new id))) fs
  | fork {gs fs i g} (id : GraphId) : LinkedHistory gs fs → gs id = none → gs i = some g →
      LinkedHistory (Function.update gs id (some (g.fork id))) fs
  | request {gs fs i g h made} (r : MatrixRequest) : LinkedHistory gs fs → gs i = some g →
      (∀ f, r.function? = some f → f ∈ fs) → (∀ o, r.object? = some o → o.Stems) →
      r.run g = .ok made h → LinkedHistory (Function.update gs i (some h)) (made ++ fs)
  | failure {gs fs i g h e} (r : MatrixRequest) : LinkedHistory gs fs → gs i = some g →
      (∀ f, r.function? = some f → f ∈ fs) → (∀ o, r.object? = some o → o.Stems) →
      r.run g = .error e h → LinkedHistory (Function.update gs i (some h)) fs
  | declare {gs fs i g inputs outputs options f} : LinkedHistory gs fs → gs i = some g →
      MatrixFunction.declare g inputs outputs options = .ok f → LinkedHistory gs (f :: fs)
  | init {gs fs i g f f'} : LinkedHistory gs fs → gs i = some g → f ∈ fs → f.init g = .ok f' →
      LinkedHistory gs (f' :: fs)

namespace LinkedHistory

variable {gs : GraphId → Option MatrixGraph} {fs : List MatrixFunction} {i : GraphId}
  {g : MatrixGraph}

/-- A linked history is a history. -/
theorem history (hist : LinkedHistory gs fs) : MatrixHistory gs fs := by
  induction hist with
  | start => exact .start
  | new id _ hfresh ih => exact ih.new id hfresh
  | fork id _ hfresh hg ih => exact ih.fork id hfresh hg
  | request r _ hg hused _ hrun ih => exact ih.request r hg hused hrun
  | failure r _ hg hused _ hrun ih => exact ih.failure r hg hused hrun
  | declare _ hg hf ih => exact ih.declare hg hf
  | init _ hg hf hinit ih => exact ih.init hg hf hinit

/-- A linked history goes on with requests for expressions, whatever their outcome. -/
theorem afterAll (rs : List MatrixRequest) (hrs : ∀ r ∈ rs, r.function? = none)
    (hlinked : ∀ r ∈ rs, ∀ o, r.object? = some o → o.Stems)
    (hist : LinkedHistory (Function.update gs i (some g)) fs) :
    LinkedHistory (Function.update gs i (some (rs.foldl (fun g r => r.after g) g))) fs := by
  induction rs generalizing g with
  | nil => exact hist
  | cons r rest ih =>
    have hr := hrs r (by simp)
    have hused : ∀ f, r.function? = some f → f ∈ fs := by simp [hr]
    have hself : Function.update gs i (some g) i = some g := Function.update_self ..
    have hist' : LinkedHistory (Function.update gs i (some (r.after g))) fs := by
      rw [MatrixRequest.after]
      cases hrun : r.run g with
      | ok made h =>
        have hmade := hist.request r hself hused (hlinked r (by simp)) hrun
        rwa [MatrixRequest.made_eq_nil hr hrun, Function.update_idem] at hmade
      | error e h =>
        have hfailed := hist.failure r hself hused (hlinked r (by simp)) hrun
        rwa [Function.update_idem] at hfailed
    exact ih (fun q hq => hrs q (List.mem_cons_of_mem r hq))
      (fun q hq => hlinked q (List.mem_cons_of_mem r hq)) hist'

theorem isCompiled_of_stems {r : MatrixRequest} (hlinked : ∀ o, r.object? = some o → o.Stems) :
    ∀ o, r.object? = some o → o.function.IsCompiled := by
  intro o ho
  obtain ⟨_, _, hist, hmem⟩ := hlinked o ho
  exact hist.isCompiled _ hmem

/-- **All embedded routines were compiled from scalar expressions.** -/
theorem routinesCompiled (hist : LinkedHistory gs fs) :
    ∀ i g, gs i = some g → g.RoutinesCompiled := by
  induction hist with
  | start => simp
  | new id _ _ ih =>
    refine Arena.forall_update (fun j h _ hj => ih j h hj) ?_
    exact fun e r arguments o hn => by contradiction
  | fork id _ _ hg ih =>
    refine Arena.forall_update (fun j h _ hj => ih j h hj) ?_
    exact fun e r arguments o hn => ih _ _ hg e r arguments o hn
  | @request gs fs i g h made r _ hg _ hlinked hrun ih =>
    have hkeeps := r.keepsCompiled_run (isCompiled_of_stems hlinked) g (ih i g hg)
    rw [hrun] at hkeeps
    exact Arena.forall_update (fun j h _ hj => ih j h hj) hkeeps
  | @failure gs fs i g h e r _ hg _ hlinked hrun ih =>
    have hkeeps := r.keepsCompiled_run (isCompiled_of_stems hlinked) g (ih i g hg)
    rw [hrun] at hkeeps
    exact Arena.forall_update (fun j h _ hj => ih j h hj) hkeeps
  | declare _ _ _ ih => exact ih
  | init _ _ _ _ ih => exact ih

/-- **Compiled tapes compute what the rules say.** A tape without free symbols runs without missing
anything, over any algebra without effects, and each output has the nonzeros that the rules give its
expression and no others, as many as its pattern has. -/
theorem denotes_replay (hist : LinkedHistory gs fs) (hg : gs i = some g)
    {inputs outputs : List MatrixId} {tape : MatrixTape}
    (hcompile : MatrixTape.compile g inputs outputs = .ok tape) (hclosed : tape.freeSymbols = [])
    {V : Type} (A : Algebra Id V) {values : Bundle V}
    (hvalues : values.map List.length = inputs.map fun e => (MatrixTape.patternIn g e).nnz) :
    ∃ results : Bundle V,
      Id.run (tape.replay A values outputs.length) = results ∧
      tape.checkedReplay A values outputs.length = some results ∧
      List.Forall₂ (fun e x => x.length = (MatrixTape.patternIn g e).nnz ∧
        ∀ y, g.Denotes A (MatrixTape.supply inputs values) e y ↔ y = x) outputs results := by
  have hwell := hist.history.invariant.2.1 i g hg
  have hroutines := hist.routinesCompiled i g hg
  have hcompiled := MatrixTape.compiled_of_compile hcompile
  have hgives := hcompiled.gives hvalues
  refine ⟨_, hcompiled.replay_eq A values,
    hcompiled.checkedReplay_eq hwell hvalues hclosed hroutines, ?_⟩
  rw [List.forall₂_map_right_iff, List.forall₂_same]
  intro e he
  obtain ⟨n, hn⟩ := hcompiled.known e he
  obtain ⟨p, hp, -⟩ := hwell.exists_typed hn
  refine ⟨?_, fun y => ⟨fun hy => hy.eq_evaluate hwell hgives, ?_⟩⟩
  · rw [MatrixGraph.patternIn_eq hp]
    exact hwell.length_evaluate hgives.fits hp
  · rintro rfl
    exact hcompiled.denotes_output hwell hvalues hclosed hroutines he

end LinkedHistory

/-! ### An embedded product -/

namespace EmbeddedProduct

def object : FunctionObject :=
  .new (.numbered 0) (Product.functionAt (.initialized Product.expressions Product.tape))

/-- A column of two, the product of its elements by an embedded function, and the column times that. -/
def requests : List MatrixRequest :=
  [.symbol "x" (.denseColumn 2), .call object [⟨0⟩], .binary .mul ⟨1⟩ ⟨0⟩]

def graph : MatrixGraph := requests.foldl (fun g r => r.after g) (.new (.numbered 0))

def tape : MatrixTape where
  instrs := [⟨.input 0, [], some 0, .denseColumn 2, ⟨0⟩⟩,
    ⟨.call ⟨.numbered 0, .forward (.numbered 0), .reverse (.numbered 0), {}, [.denseColumn 2],
      [.scalar], Product.tape, rfl⟩ 0, [0], some 1, .scalar, ⟨1⟩⟩,
    ⟨.binary .mul, [1, 0], some 0, .denseColumn 2, ⟨2⟩⟩,
    ⟨.output 0, [0], none, .denseColumn 2, ⟨2⟩⟩]
  freeSymbols := []
  freeNames := []
  workSize := 2

theorem history : LinkedHistory (Function.update (fun _ => none) (.numbered 0) (some graph)) [] := by
  have hstems : object.Stems := ⟨_, _, Product.history, List.mem_cons_self ..⟩
  refine .afterAll requests (by decide) ?_ (.new (.numbered 0) .start rfl)
  simp only [requests, List.forall_mem_cons, List.not_mem_nil]
  exact ⟨fun _ ho => by contradiction, fun _ ho => Option.some.inj ho ▸ hstems,
    fun _ ho => by contradiction, fun _ ho => ho.elim⟩

/-- The column times the product of its elements, as a function of the column. -/
def functionWith (tape? : Option MatrixTape) : MatrixFunction where
  options := {}
  owner := ⟨.numbered 0, 2⟩
  inputs := [⟨0⟩]
  outputs := [⟨2⟩]
  inPatterns := [.denseColumn 2]
  outPatterns := [.denseColumn 2]
  inNames := ["x"]
  tape? := tape?

theorem functions : LinkedHistory (Function.update (fun _ => none) (.numbered 0) (some graph))
    [functionWith (some tape), functionWith none] := by
  have hdeclared := history.declare (i := .numbered 0) (Function.update_self ..)
    (show MatrixFunction.declare graph [⟨0⟩] [⟨2⟩] {} = .ok (functionWith none) from rfl)
  exact .init hdeclared (i := .numbered 0) (Function.update_self ..) (List.mem_singleton_self _)
    (show (functionWith none).init graph = .ok (functionWith (some tape)) from rfl)

/-- Over sets of inputs, with a component for each element of the column, both elements of the result
depend on both. -/
theorem denotes_replay_dependencies :
    Id.run (tape.replay dependencyAlgebra [[1, 2]] 1) = [[3, 3]] ∧
      tape.checkedReplay dependencyAlgebra [[1, 2]] 1 = some [[3, 3]] ∧
      ∀ y, graph.Denotes dependencyAlgebra (MatrixTape.supply [⟨0⟩] [[1, 2]]) ⟨2⟩ y ↔ y = [3, 3] := by
  obtain ⟨results, hrun, hchecked, hdenotes⟩ := history.denotes_replay (i := .numbered 0)
    (Function.update_self ..) (show MatrixTape.compile graph [⟨0⟩] [⟨2⟩] = .ok tape from rfl) rfl
    dependencyAlgebra (show [[1, 2]].map List.length = _ from rfl)
  have hresults : results = [[3, 3]] := hrun.symm
  rw [hresults] at hrun hchecked hdenotes
  cases hdenotes with
  | cons h _ => exact ⟨hrun, hchecked, h.2⟩

end EmbeddedProduct

end Fluxion
