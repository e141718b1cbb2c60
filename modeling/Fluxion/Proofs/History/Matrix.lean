import Fluxion.Proofs.Lifting.Pass

/-!
# Histories of matrix graphs and functions

A history starts with nothing. Graphs are made and copied, functions are declared and initialized, and
graphs are asked for expressions, derivatives and lifting functions, in any order and with any
arguments. A request that fails may have added nodes before it did, and they stay.

After every history all graphs are well typed. This is kept by each request, for the requests that
take a function since the function is ready in every graph that passes the check of ownership.

## Main definitions

* `MatrixRequest`, `MatrixRequest.run` — what a graph can be asked for
* `MatrixHistory` — what graphs and functions there can be

## Main results

* `MatrixRequest.keeps_run` — what a request keeps
* `MatrixHistory.ready` — functions are ready in all graphs that pass the check
* `MatrixHistory.wellTyped` — **graphs are well typed after every history**
-/

namespace Fluxion

open MatrixBuilder

/-! ### Requests -/

/-- What a matrix graph can be asked for. -/
inductive MatrixRequest where
  | symbol (name : String) (p : Pattern)
  | constant (m : SparseMatrix Binary64)
  | fill (p : Pattern) (v : Binary64)
  | project (a : MatrixId) (p : Pattern)
  | densify (a : MatrixId)
  | unary (op : UnaryOp) (a : MatrixId)
  | binary (op : BinaryOp) (a b : MatrixId)
  | product (a b : MatrixId)
  | transpose (a : MatrixId)
  | vertcat (parts : List MatrixId)
  | horzcat (parts : List MatrixId)
  | element (a : MatrixId) (r c : Nat)
  | nonzeros (a : MatrixId) (numbers : List Nat)
  | sum (a : MatrixId)
  | lift (value guess : MatrixId)
  | call (r : FunctionObject) (arguments : List MatrixId)
  | jac (f : MatrixFunction) (i o : Nat) (compact symmetric : Bool)
  | grad (f : MatrixFunction) (i o : Nat)
  | tang (f : MatrixFunction) (i o : Nat)
  | hess (f : MatrixFunction) (i o : Nat)
  | jacobian (f : MatrixFunction) (i o : Nat) (compact symmetric : Bool)
  | liftingFunctions (f : MatrixFunction)

namespace MatrixRequest

/-- The function that a request is about, if it is about one. -/
def function? : MatrixRequest → Option MatrixFunction
  | jac f .. | grad f .. | tang f .. | hess f .. | jacobian f .. | liftingFunctions f => some f
  | _ => none

/-- Carry out a request. The results are the matrix functions that it makes; expressions that it
makes are there to be named by anyone. -/
def run : MatrixRequest → MatrixBuilder (List MatrixFunction)
  | symbol name p => do let _ ← MatrixBuilder.symbol name p; return []
  | constant m => do let _ ← MatrixBuilder.constant m; return []
  | fill p v => do let _ ← MatrixBuilder.fill p v; return []
  | project a p => do let _ ← MatrixBuilder.project a p; return []
  | densify a => do let _ ← MatrixBuilder.densify a; return []
  | unary op a => do let _ ← MatrixBuilder.unary op a; return []
  | binary op a b => do let _ ← MatrixBuilder.binary op a b; return []
  | product a b => do let _ ← MatrixBuilder.product a b; return []
  | transpose a => do let _ ← MatrixBuilder.transpose a; return []
  | vertcat parts => do let _ ← MatrixBuilder.vertcat parts; return []
  | horzcat parts => do let _ ← MatrixBuilder.horzcat parts; return []
  | element a r c => do let _ ← MatrixBuilder.element a r c; return []
  | nonzeros a numbers => do let _ ← MatrixBuilder.nonzeros a numbers; return []
  | sum a => do let _ ← MatrixBuilder.sum a; return []
  | lift value guess => do let _ ← MatrixBuilder.lift value guess; return []
  | call r arguments => do let _ ← MatrixBuilder.call r arguments; return []
  | jac f i o compact symmetric => do let _ ← f.jac i o compact symmetric; return []
  | grad f i o => do let _ ← f.grad i o; return []
  | tang f i o => do let _ ← f.tang i o; return []
  | hess f i o => do let _ ← f.hess i o; return []
  | jacobian f i o compact symmetric => do return [← f.jacobian i o compact symmetric]
  | liftingFunctions f => do
    let fs ← f.liftingFunctions
    return [fs.definition, fs.guess]

/-- The graph that a request leaves, whether it succeeds or fails. -/
def after (r : MatrixRequest) (g : MatrixGraph) : MatrixGraph :=
  match r.run g with
  | .ok _ h | .error _ h => h

variable {g h : MatrixGraph}

/-- Functions that were made in a graph. -/
def AllMade (fs : List MatrixFunction) (g : MatrixGraph) : Prop :=
  ∀ f ∈ fs, ∃ inputs outputs, f.Made g inputs outputs

theorem keeps_nothing {α : Type} {x : MatrixBuilder α} {Q : α → MatrixGraph → Prop}
    (hx : Keeps x g Q) : Keeps (do let _ ← x; return []) g AllMade :=
  hx.bind fun _ _ _ _ => keeps_pure (by simp [AllMade])

theorem nothing_made {α : Type} {x : MatrixBuilder α} {made : List MatrixFunction}
    (hrun : (do let _ ← x; return [] : MatrixBuilder (List MatrixFunction)) g = .ok made h) :
    made = [] := by
  simp only [Bind.bind, EStateM.bind] at hrun
  split at hrun
  · cases hrun
    rfl
  · contradiction

/-- Requests for expressions make no functions. -/
theorem made_eq_nil {r : MatrixRequest} {made : List MatrixFunction} (hr : r.function? = none)
    (hrun : r.run g = .ok made h) : made = [] := by
  cases r <;> first | contradiction | exact nothing_made hrun

/-- **What a request keeps**, if the function that it is about is ready wherever it passes the check
of ownership. -/
theorem keeps_run (r : MatrixRequest)
    (hready : ∀ f, r.function? = some f → f.livesIn g = true → f.Ready g) :
    Keeps r.run g AllMade := by
  cases r with
  | symbol name p => exact keeps_nothing (keeps_symbol name p)
  | constant m => exact keeps_nothing (keeps_constant m)
  | fill p v => exact keeps_nothing (keeps_fill p v)
  | project a p => exact keeps_nothing (keeps_project a p)
  | densify a => exact keeps_nothing (keeps_densify a)
  | unary op a => exact keeps_nothing (keeps_unary op a)
  | binary op a b => exact keeps_nothing (keeps_binary op a b)
  | product a b => exact keeps_nothing (keeps_product a b)
  | transpose a => exact keeps_nothing (keeps_transpose a)
  | vertcat parts => exact keeps_nothing (keeps_vertcat parts)
  | horzcat parts => exact keeps_nothing (keeps_horzcat parts)
  | element a r c => exact keeps_nothing (keeps_element a r c)
  | nonzeros a numbers => exact keeps_nothing (keeps_nonzeros a numbers)
  | sum a => exact keeps_nothing (keeps_sum a)
  | lift value guess => exact keeps_nothing (keeps_lift value guess)
  | call r arguments => exact keeps_nothing (keeps_call r arguments)
  | jac f i o compact symmetric =>
    exact keeps_nothing (MatrixFunction.keeps_jac (hready f rfl) i o compact symmetric)
  | grad f i o => exact keeps_nothing (MatrixFunction.keeps_grad (hready f rfl) i o)
  | tang f i o => exact keeps_nothing (MatrixFunction.keeps_tang (hready f rfl) i o)
  | hess f i o => exact keeps_nothing (MatrixFunction.keeps_hess (hready f rfl) i o)
  | jacobian f i o compact symmetric =>
    refine (MatrixFunction.keeps_jacobian (hready f rfl) i o compact symmetric).bind
      fun f' h _ hmade => keeps_pure ?_
    obtain ⟨e, hmade⟩ := hmade
    exact List.forall_mem_singleton.mpr ⟨_, _, hmade⟩
  | liftingFunctions f =>
    refine (MatrixFunction.keeps_liftingFunctions (hready f rfl)).bind fun fs h _ hmade =>
      keeps_pure ?_
    obtain ⟨ins, outs, ins', outs', hdefinition, hguess⟩ := hmade
    exact List.forall_mem_cons.mpr ⟨⟨_, _, hdefinition⟩,
      List.forall_mem_singleton.mpr ⟨_, _, hguess⟩⟩

end MatrixRequest

/-! ### Histories -/

/-- Graphs by identity, and functions, after any number of requests. -/
inductive MatrixHistory : (GraphId → Option MatrixGraph) → List MatrixFunction → Prop
  | start : MatrixHistory (fun _ => none) []
  | new {gs fs} (id : GraphId) : MatrixHistory gs fs → gs id = none →
      MatrixHistory (Function.update gs id (some (.new id))) fs
  | fork {gs fs i g} (id : GraphId) : MatrixHistory gs fs → gs id = none → gs i = some g →
      MatrixHistory (Function.update gs id (some (g.fork id))) fs
  | request {gs fs i g h made} (r : MatrixRequest) : MatrixHistory gs fs → gs i = some g →
      (∀ f, r.function? = some f → f ∈ fs) → r.run g = .ok made h →
      MatrixHistory (Function.update gs i (some h)) (made ++ fs)
  | failure {gs fs i g h e} (r : MatrixRequest) : MatrixHistory gs fs → gs i = some g →
      (∀ f, r.function? = some f → f ∈ fs) → r.run g = .error e h →
      MatrixHistory (Function.update gs i (some h)) fs
  | declare {gs fs i g inputs outputs options f} : MatrixHistory gs fs → gs i = some g →
      MatrixFunction.declare g inputs outputs options = .ok f → MatrixHistory gs (f :: fs)
  | init {gs fs i g f f'} : MatrixHistory gs fs → gs i = some g → f ∈ fs → f.init g = .ok f' →
      MatrixHistory gs (f' :: fs)

namespace MatrixFunction

variable {gs hs : GraphId → Option MatrixGraph} {f f' : MatrixFunction} {g : MatrixGraph}
  {i : GraphId}

/-- What there is of a function is from the graph that its handles belong to. -/
def Rooted (gs : GraphId → Option MatrixGraph) (f : MatrixFunction) : Prop :=
  ∃ g, gs f.owner.graph = some g ∧ f.Owned g ∧ f.Ready g

theorem Rooted.continues (hf : f.Rooted gs) (hgs : MatrixGraph.arena.Continues gs hs) :
    f.Rooted hs := by
  obtain ⟨g, hg, ⟨bound, hbound, hsize, hin, hout⟩, hready⟩ := hf
  obtain ⟨h, hh, hgrow⟩ := hgs _ g hg
  have hle : bound ≤ h.size := Nat.le_trans hsize hgrow.size_le
  exact ⟨h, hh, ⟨bound, hbound, hle, hin, hout⟩,
    hready.of_agree (hgrow.agreeBelow.mono hsize) hle hin hout⟩

/-- A graph that passes the check has what the graph has that the handles belong to, up to the last
handle. -/
theorem Rooted.agree (hf : f.Rooted gs) (hgs : MatrixGraph.arena.Family gs) (hg : gs i = some g)
    (hlives : f.livesIn g = true) : ∃ h bound, gs f.owner.graph = some h ∧ f.Owned h ∧ f.Ready h ∧
      MatrixGraph.arena.AgreeBelow h g bound ∧ bound ≤ g.size ∧ bound ≤ h.size ∧
      (∀ e ∈ f.inputs, e.index < bound) ∧ ∀ e ∈ f.outputs, e.index < bound := by
  obtain ⟨h, hh, howned, hready⟩ := hf
  obtain ⟨bound, rfl | rfl, hsize, hin, hout⟩ := id howned
  · exact ⟨h, 0, hh, howned, hready, fun _ hlt => absurd hlt (Nat.not_lt_zero _), Nat.zero_le _,
      hsize, hin, hout⟩
  · obtain ⟨hlast, hagree⟩ := hgs.agreeBelow hg hh hsize hlives
    exact ⟨h, _, hh, howned, hready, hagree, hlast, hsize, hin, hout⟩

/-- **Functions are ready in graphs that pass the check.** -/
theorem Rooted.ready (hf : f.Rooted gs) (hgs : MatrixGraph.arena.Family gs) (hg : gs i = some g)
    (hlives : f.livesIn g = true) : f.Ready g := by
  obtain ⟨h, bound, -, -, hready, hagree, hsize, -, hin, hout⟩ := hf.agree hgs hg hlives
  exact hready.of_agree hagree hsize hin hout

theorem rooted_declare {inputs outputs : List MatrixId} {options : FunctionOptions}
    (hg : gs g.lineage.id = some g) (hf : declare g inputs outputs options = .ok f) :
    f.Rooted gs := by
  have howned := owned_declare hf
  have hready := ready_declare hf
  rw [declare] at hf
  split at hf
  · contradiction
  · obtain rfl := Except.ok.inj hf
    exact ⟨g, hg, howned, hready⟩

theorem rooted_made {inputs outputs : List MatrixId} (hg : gs g.lineage.id = some g)
    (hf : f.Made g inputs outputs) : f.Rooted gs :=
  ⟨g, by rw [hf.owner]; exact hg, hf.owned, hf.ready⟩

theorem lives_of_init (hinit : f.init g = .ok f') : f.livesIn g = true := by
  by_contra hlives
  rw [init, checkGraph, if_neg hlives] at hinit
  contradiction

theorem rooted_init (hgs : MatrixGraph.arena.Family gs) (hg : gs i = some g) (hf : f.Rooted gs)
    (hinit : f.init g = .ok f') : f'.Rooted gs := by
  obtain ⟨h, bound, hh, howned, hready, hagree, hsize, hle, hin, hout⟩ :=
    hf.agree hgs hg (lives_of_init hinit)
  rcases init_eq_ok hinit with ⟨rfl, -⟩ | ⟨tape, hcompile, rfl⟩
  · exact hf
  · refine ⟨h, hh, howned, hready.inPatterns, hready.outPatterns, fun t ht => ?_, hready.named⟩
    obtain rfl := Option.some.inj ht
    exact (MatrixTape.compiled_of_compile hcompile).resides.of_agree hagree.symm hle hin hout

end MatrixFunction

namespace MatrixHistory

variable {gs : GraphId → Option MatrixGraph} {fs : List MatrixFunction} {i : GraphId}
  {g : MatrixGraph}

/-- What a family of graphs keeps when one of them grows. -/
theorem grow_step {h : MatrixGraph} (hfamily : MatrixGraph.arena.Family gs)
    (htyped : ∀ j k, gs j = some k → k.WellTyped) (hrooted : ∀ f ∈ fs, f.Rooted gs)
    (hg : gs i = some g) (hgrow : g.Grows h) (hh : h.WellTyped) :
    MatrixGraph.arena.Family (Function.update gs i (some h)) ∧
      (∀ j k, Function.update gs i (some h) j = some k → k.WellTyped) ∧
      ∀ f ∈ fs, f.Rooted (Function.update gs i (some h)) :=
  ⟨hfamily.grow hg hgrow.arena, Arena.forall_update (fun j k _ hj => htyped j k hj) hh,
    fun f hf => (hrooted f hf).continues (Arena.continues_grow hg hgrow.arena)⟩

theorem invariant (hist : MatrixHistory gs fs) :
    MatrixGraph.arena.Family gs ∧ (∀ i g, gs i = some g → g.WellTyped) ∧ ∀ f ∈ fs, f.Rooted gs := by
  induction hist with
  | start => exact ⟨.empty, by simp, by simp⟩
  | new id _ hfresh ih =>
    obtain ⟨hfamily, htyped, hrooted⟩ := ih
    exact ⟨hfamily.new hfresh rfl,
      Arena.forall_update (fun j h _ hj => htyped j h hj) (MatrixGraph.wellTyped_new id),
      fun f hf => (hrooted f hf).continues (Arena.continues_fresh hfresh)⟩
  | fork id _ hfresh hg ih =>
    obtain ⟨hfamily, htyped, hrooted⟩ := ih
    exact ⟨hfamily.fork hfresh hg rfl rfl fun _ _ => rfl,
      Arena.forall_update (fun j h _ hj => htyped j h hj) ((htyped _ _ hg).fork id),
      fun f hf => (hrooted f hf).continues (Arena.continues_fresh hfresh)⟩
  | @request gs fs i g h made r _ hg hused hrun ih =>
    obtain ⟨hfamily, htyped, hrooted⟩ := ih
    have hkeeps := r.keeps_run
      (fun f hf hlives => (hrooted f (hused f hf)).ready hfamily hg hlives) (htyped i g hg)
    rw [hrun] at hkeeps
    obtain ⟨hgrow, hh, hmade⟩ := hkeeps
    obtain ⟨hfamily', htyped', hrooted'⟩ := grow_step hfamily htyped hrooted hg hgrow hh
    refine ⟨hfamily', htyped', List.forall_mem_append.mpr ⟨fun f hf => ?_, hrooted'⟩⟩
    obtain ⟨inputs, outputs, hmade⟩ := hmade f hf
    have hself : Function.update gs i (some h) i = some h := Function.update_self ..
    exact MatrixFunction.rooted_made ((congrArg _ (hfamily'.id i h hself)).trans hself) hmade
  | @failure gs fs i g h e r _ hg hused hrun ih =>
    obtain ⟨hfamily, htyped, hrooted⟩ := ih
    have hkeeps := r.keeps_run
      (fun f hf hlives => (hrooted f (hused f hf)).ready hfamily hg hlives) (htyped i g hg)
    rw [hrun] at hkeeps
    exact grow_step hfamily htyped hrooted hg hkeeps.1 hkeeps.2
  | declare _ hg hf ih =>
    obtain ⟨hfamily, htyped, hrooted⟩ := ih
    refine ⟨hfamily, htyped, List.forall_mem_cons.mpr ⟨?_, hrooted⟩⟩
    have hid := hfamily.id _ _ hg
    exact MatrixFunction.rooted_declare (by rw [← hg]; exact congrArg _ hid) hf
  | init _ hg hf hinit ih =>
    obtain ⟨hfamily, htyped, hrooted⟩ := ih
    exact ⟨hfamily, htyped, List.forall_mem_cons.mpr
      ⟨MatrixFunction.rooted_init hfamily hg (hrooted _ hf) hinit, hrooted⟩⟩

/-- **Functions are ready in all graphs that pass the check of ownership.** -/
theorem ready (hist : MatrixHistory gs fs) {f : MatrixFunction} (hf : f ∈ fs) (hg : gs i = some g)
    (hlives : f.livesIn g = true) : f.Ready g :=
  (hist.invariant.2.2 f hf).ready hist.invariant.1 hg hlives

/-- **Graphs are well typed after every history.** Operands come before their readers, every node is
on the pattern that its typing rule says, and no node is there twice. -/
theorem wellTyped (hist : MatrixHistory gs fs) (hg : gs i = some g) : g.WellTyped :=
  hist.invariant.2.1 i g hg

/-- A history goes on with a request that makes no function, whatever its outcome. -/
theorem after {r : MatrixRequest} (hist : MatrixHistory gs fs) (hg : gs i = some g)
    (hused : ∀ f, r.function? = some f → f ∈ fs)
    (hmade : ∀ made h, r.run g = .ok made h → made = []) :
    MatrixHistory (Function.update gs i (some (r.after g))) fs := by
  rw [MatrixRequest.after]
  cases hrun : r.run g with
  | ok made h =>
    have hist' := hist.request r hg hused hrun
    rwa [hmade made h hrun] at hist'
  | error e h => exact hist.failure r hg hused hrun

/-- A history goes on with requests for expressions. -/
theorem afterAll {rs : List MatrixRequest} (hrs : ∀ r ∈ rs, r.function? = none)
    (hist : MatrixHistory (Function.update gs i (some g)) fs) :
    MatrixHistory (Function.update gs i (some (rs.foldl (fun g r => r.after g) g))) fs := by
  induction rs generalizing g with
  | nil => exact hist
  | cons r rest ih =>
    have hr := hrs r (by simp)
    have hist' := hist.after (r := r) (Function.update_self ..) (by simp [hr])
      fun made h => MatrixRequest.made_eq_nil hr
    rw [Function.update_idem] at hist'
    exact ih (fun q hq => hrs q (List.mem_cons_of_mem r hq)) hist'

end MatrixHistory

/-! ### A lifted sine -/

namespace LiftedSine

/-- A symbol, its sine, which is lifted with the symbol as the guess, and the square of that. -/
def requests : List MatrixRequest :=
  [.symbol "x" .scalar, .unary .sin ⟨0⟩, .lift ⟨1⟩ ⟨0⟩, .binary .mul ⟨2⟩ ⟨2⟩]

def graph : MatrixGraph := requests.foldl (fun g r => r.after g) (.new (.numbered 0))

/-- The square as a function of the symbol. -/
def tape : MatrixTape where
  instrs := [⟨.input 0, [], some 0, .scalar, ⟨0⟩⟩, ⟨.unary .sin, [0], some 0, .scalar, ⟨1⟩⟩,
    ⟨.lift, [0], some 0, .scalar, ⟨2⟩⟩, ⟨.binary .mul, [0, 0], some 0, .scalar, ⟨3⟩⟩,
    ⟨.output 0, [0], none, .scalar, ⟨3⟩⟩]
  freeSymbols := []
  freeNames := []
  workSize := 1

def functionWith (tape? : Option MatrixTape) : MatrixFunction where
  options := {}
  owner := ⟨.numbered 0, 3⟩
  inputs := [⟨0⟩]
  outputs := [⟨3⟩]
  inPatterns := [.scalar]
  outPatterns := [.scalar]
  inNames := ["x"]
  tape? := tape?

theorem history : MatrixHistory (Function.update (fun _ => none) (.numbered 0) (some graph))
    [functionWith (some tape), functionWith none] := by
  have hgraph := @MatrixHistory.afterAll _ _ _ _ requests (by decide)
    (.new (.numbered 0) .start rfl)
  have hdeclared := hgraph.declare (i := .numbered 0) (Function.update_self ..)
    (show MatrixFunction.declare graph [⟨0⟩] [⟨3⟩] {} = .ok (functionWith none) from rfl)
  exact .init hdeclared (i := .numbered 0) (Function.update_self ..) (List.mem_singleton_self _)
    (show (functionWith none).init graph = .ok (functionWith (some tape)) from rfl)

/-- The graph stays well typed when the derivative of the square is asked for. -/
theorem wellTyped_jac :
    (MatrixRequest.after (.jac (functionWith (some tape)) 0 0 false false) graph).WellTyped :=
  MatrixHistory.wellTyped (i := .numbered 0)
    (history.after (i := .numbered 0) (r := .jac (functionWith (some tape)) 0 0 false false)
      (Function.update_self ..)
      (fun _ hf => Option.some.inj hf ▸ List.mem_cons_self ..)
      fun _ _ => MatrixRequest.nothing_made)
    (Function.update_self ..)

end LiftedSine

end Fluxion
