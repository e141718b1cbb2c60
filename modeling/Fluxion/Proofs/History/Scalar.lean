import Fluxion.Proofs.History.Family
import Fluxion.Proofs.Scalar.Derivatives
import Fluxion.Function.Scalar

/-!
# Histories of scalar graphs and functions

A history starts with nothing. Graphs are made, copied and added to, and functions over them are
declared, initialized, cleared and settled, in any order. Nothing is taken away: what is there may
be used again at any later time.

After every history, a function that has a tape and its expressions resides in each graph that
passes the check of ownership.

## Main definitions

* `ScalarHistory` — what graphs and functions there can be
* `ScalarFunction.Rooted` — a function and the graph of its handles

## Main results

* `ScalarHistory.family`, `ScalarHistory.founded`, `ScalarHistory.rooted` — what histories keep
* `ScalarHistory.resides` — **tapes reside in all graphs that pass the check**
-/

namespace Fluxion

/-- Graphs by identity, and functions, after any number of requests. -/
inductive ScalarHistory : (GraphId → Option ScalarGraph) → List ScalarFunction → Prop
  | start : ScalarHistory (fun _ => none) []
  | new {gs fs} (id : GraphId) : ScalarHistory gs fs → gs id = none →
      ScalarHistory (Function.update gs id (some (.new id))) fs
  | fork {gs fs i g} (id : GraphId) : ScalarHistory gs fs → gs id = none → gs i = some g →
      ScalarHistory (Function.update gs id (some (g.fork id))) fs
  | grow {gs fs i g h} : ScalarHistory gs fs → gs i = some g → g.Grows h →
      ScalarHistory (Function.update gs i (some h)) fs
  | declare {gs fs i g inputs outputs options f} : ScalarHistory gs fs → gs i = some g →
      ScalarFunction.declare g inputs outputs options = .ok f → ScalarHistory gs (f :: fs)
  | init {gs fs i g f f'} : ScalarHistory gs fs → gs i = some g → f ∈ fs → f.init g = .ok f' →
      ScalarHistory gs (f' :: fs)
  | clear {gs fs f f'} : ScalarHistory gs fs → f ∈ fs → f.clear = .ok f' →
      ScalarHistory gs (f' :: fs)
  | settle {gs fs i g f} : ScalarHistory gs fs → gs i = some g → f ∈ fs →
      ScalarHistory gs (f.settle g :: fs)

namespace ScalarGraph

/-- Scalar graphs by their nodes. -/
def arena : Arena ScalarGraph (Option ScalarNode) := ⟨(·.lineage), (·.size), fun g i => g.node? ⟨i⟩⟩

variable {g h : ScalarGraph} {n : Nat}

theorem AgreeBelow.of_arena (hgh : arena.AgreeBelow g h n) : AgreeBelow g h n :=
  fun e he => hgh e.index he

theorem Grows.arena (hgrow : g.Grows h) : arena.Grows g h :=
  ⟨hgrow.lineage, hgrow.size_le, fun i hi => hgrow.agreeBelow ⟨i⟩ hi⟩

theorem Founded.pos (hg : g.Founded) : 0 < g.size := index_lt_of_node? hg.zero

theorem Founded.fork (hg : g.Founded) (id : GraphId) : (g.fork id).Founded :=
  ⟨hg.zero, hg.one, hg.two⟩

end ScalarGraph

namespace ScalarFunction

open ScalarTape

/-- The expressions of a function: their patterns, and that they are up to the last handle. -/
structure Holds (f : ScalarFunction) (e : Expressions) : Prop where
  inPatterns : f.inPatterns = e.inputs.map SparseMatrix.pattern
  outPatterns : f.outPatterns = e.outputs.map SparseMatrix.pattern
  inputs : ∀ p ∈ places e.inputs, p.e.index ≤ f.owner.last
  outputs : ∀ p ∈ places e.outputs, p.e.index ≤ f.owner.last

namespace Holds

variable {f : ScalarFunction} {e : Expressions}

theorem inSizes (hf : f.Holds e) : f.inSizes = countsOf e.inputs := by
  rw [ScalarFunction.inSizes, hf.inPatterns, map_nnz_pattern]

theorem outSizes (hf : f.Holds e) : f.outSizes = countsOf e.outputs := by
  rw [ScalarFunction.outSizes, hf.outPatterns, map_nnz_pattern]

end Holds

/-- The tape was compiled from the expressions, in a graph that has the nodes of `g`. -/
def CompiledLike (g : ScalarGraph) (f : ScalarFunction) (e : Expressions) (tape : ScalarTape) :
    Prop :=
  ∃ origin : ScalarGraph, Compiled origin e.inputs e.outputs tape ∧ f.owner.last < origin.size ∧
    ScalarGraph.AgreeBelow origin g (f.owner.last + 1)

/-- What there is of a function is from the graph that its handles belong to. -/
def Rooted (gs : GraphId → Option ScalarGraph) (f : ScalarFunction) : Prop :=
  ∃ g, gs f.owner.graph = some g ∧ f.owner.last < g.size ∧
    match f.stage with
    | .declared e => f.Holds e
    | .initialized e tape => f.Holds e ∧ f.CompiledLike g e tape
    | .cleared tape => ∃ e, f.Holds e ∧ f.CompiledLike g e tape

variable {gs hs : GraphId → Option ScalarGraph} {f f' : ScalarFunction} {g : ScalarGraph}

theorem CompiledLike.grow {h : ScalarGraph} {e : Expressions} {tape : ScalarTape}
    (hf : f.CompiledLike g e tape) (hlast : f.owner.last < g.size) (hgrow : ScalarGraph.arena.Grows g h) :
    f.CompiledLike h e tape := by
  obtain ⟨origin, hcompiled, horigin, hagree⟩ := hf
  exact ⟨origin, hcompiled, horigin,
    hagree.trans (ScalarGraph.AgreeBelow.of_arena (hgrow.agreeBelow.mono hlast))⟩

theorem Rooted.continues (hf : f.Rooted gs) (hgs : ScalarGraph.arena.Continues gs hs) : f.Rooted hs := by
  obtain ⟨g, hg, hlast, hstage⟩ := hf
  obtain ⟨h, hh, hgrow⟩ := hgs _ g hg
  refine ⟨h, hh, Nat.lt_of_lt_of_le hlast hgrow.size_le, ?_⟩
  cases hs : f.stage with
  | declared e => simpa [hs] using hstage
  | initialized e tape =>
    rw [hs] at hstage
    exact ⟨hstage.1, hstage.2.grow hlast hgrow⟩
  | cleared tape =>
    rw [hs] at hstage
    obtain ⟨e, he, hcompiled⟩ := hstage
    exact ⟨e, he, hcompiled.grow hlast hgrow⟩

/-! ### What requests do -/

theorem mem_handlesOf {ms : List (SparseMatrix ScalarId)} {p : Place} (hp : p ∈ places ms) :
    p.e ∈ handlesOf ms := by
  obtain ⟨m, hm, he⟩ := mem_places.mp hp
  exact List.mem_flatMap.mpr ⟨m, List.mem_of_getElem? hm, List.mem_of_getElem? he⟩

theorem rooted_declare {inputs outputs : List (SparseMatrix ScalarId)} {options : FunctionOptions}
    (hg : gs g.lineage.id = some g) (hfounded : g.Founded)
    (hf : declare g inputs outputs options = .ok f) : f.Rooted gs := by
  rw [declare] at hf
  split at hf
  · contradiction
  · rename_i hknown
    obtain rfl := Except.ok.inj hf
    have hlt : ∀ x ∈ (handlesOf (inputs ++ outputs)).map ScalarId.index, x < g.size := by
      intro x hx
      obtain ⟨e, he, rfl⟩ := List.mem_map.mp hx
      exact (ScalarGraph.has_of_unknown? hknown he).index_lt
    have hle : ∀ e ∈ handlesOf (inputs ++ outputs), e.index
        ≤ ((handlesOf (inputs ++ outputs)).map ScalarId.index).foldl max 0 := fun e he =>
      le_foldl_max.2 _ (List.mem_map_of_mem he)
    refine ⟨g, hg, foldl_max_lt hfounded.pos hlt, rfl, rfl, fun p hp => hle _ ?_,
      fun p hp => hle _ ?_⟩
    · rw [handlesOf, List.flatMap_append]
      exact List.mem_append_left _ (mem_handlesOf hp)
    · rw [handlesOf, List.flatMap_append]
      exact List.mem_append_right _ (mem_handlesOf hp)

/-- A function is compiled once, and left alone when it is initialized again. -/
theorem init_cases (hinit : f.init g = .ok f') : f.livesIn g = true ∧
    (f' = f ∧ f.isInitialized = true ∨ ∃ e tape, f.stage = .declared e ∧
      ScalarTape.compile g e.inputs e.outputs = .ok tape ∧
      f' = { f with stage := .initialized e tape }) := by
  rw [init, checkGraph] at hinit
  split at hinit
  · rename_i hlives
    refine ⟨hlives, ?_⟩
    cases hs : f.stage with
    | declared e =>
      simp only [hs] at hinit
      cases hcompile : ScalarTape.compile g e.inputs e.outputs with
      | error _ => simp [hcompile, bind, Except.bind] at hinit
      | ok tape =>
        simp only [hcompile, bind, Except.bind, pure, Except.pure, Except.ok.injEq] at hinit
        exact .inr ⟨e, tape, rfl, hcompile, hinit.symm⟩
    | initialized e tape | cleared tape =>
      simp only [hs, bind, Except.bind, pure, Except.pure, Except.ok.injEq] at hinit
      exact .inl ⟨hinit.symm, by rw [isInitialized, hs]; rfl⟩
  · simp [bind, Except.bind] at hinit

/-- A function is cleared if it has a tape, which it keeps. -/
theorem clear_eq_ok (hclear : f.clear = .ok f') :
    ∃ tape, f.stage.tape? = some tape ∧ f' = { f with stage := .cleared tape } := by
  rw [clear, tape] at hclear
  cases htape : f.stage.tape? with
  | none => simp [htape, bind, Except.bind] at hclear
  | some tape =>
    simp only [htape, bind, Except.bind, pure, Except.pure, Except.ok.injEq] at hclear
    exact ⟨tape, rfl, hclear.symm⟩

theorem rooted_init {i : GraphId} (hgs : ScalarGraph.arena.Family gs) (hg : gs i = some g) (hf : f.Rooted gs)
    (hinit : f.init g = .ok f') : f'.Rooted gs := by
  obtain ⟨hlives, ⟨rfl, -⟩ | ⟨e, tape, hs, hcompile, rfl⟩⟩ := init_cases hinit
  · exact hf
  · obtain ⟨h, hh, hlast, hstage⟩ := hf
    rw [hs] at hstage
    have hagree := hgs.agreeBelow hg hh hlast hlives
    exact ⟨h, hh, hlast, ⟨hstage.1, hstage.2, hstage.3, hstage.4⟩, g,
      compiled_of_compile hcompile, hagree.1, .of_arena hagree.2.symm⟩

theorem rooted_clear (hf : f.Rooted gs) (hclear : f.clear = .ok f') : f'.Rooted gs := by
  obtain ⟨tape, htape, rfl⟩ := clear_eq_ok hclear
  obtain ⟨h, hh, hlast, hstage⟩ := hf
  cases hs : f.stage with
  | declared e =>
    rw [hs] at htape
    contradiction
  | initialized e tape' =>
    rw [hs] at hstage htape
    obtain rfl := Option.some.inj htape
    obtain ⟨hholds, hcompiled⟩ := hstage
    exact ⟨h, hh, hlast, e, ⟨hholds.1, hholds.2, hholds.3, hholds.4⟩, hcompiled⟩
  | cleared tape' =>
    rw [hs] at hstage htape
    obtain rfl := Option.some.inj htape
    obtain ⟨e, hholds, hcompiled⟩ := hstage
    exact ⟨h, hh, hlast, e, ⟨hholds.1, hholds.2, hholds.3, hholds.4⟩, hcompiled⟩

theorem rooted_settle (hf : f.Rooted gs) : (f.settle g).Rooted gs := by
  obtain ⟨h, hh, hlast, hstage⟩ := id hf
  rw [settle]
  split
  · rename_i e hs
    rw [hs] at hstage
    exact ⟨h, hh, hlast, hstage.1, hstage.2, hstage.3, hstage.4⟩
  · rename_i e tape hs
    rw [hs] at hstage
    obtain ⟨hholds, hcompiled⟩ := hstage
    exact ⟨h, hh, hlast, ⟨hholds.1, hholds.2, hholds.3, hholds.4⟩, hcompiled⟩
  · exact hf

end ScalarFunction

/-! ### What histories keep -/

namespace ScalarHistory

variable {gs : GraphId → Option ScalarGraph} {fs : List ScalarFunction}

theorem invariant (hist : ScalarHistory gs fs) :
    ScalarGraph.arena.Family gs ∧ (∀ i g, gs i = some g → g.Founded) ∧ ∀ f ∈ fs, f.Rooted gs := by
  induction hist with
  | start => exact ⟨.empty, by simp, by simp⟩
  | new id _ hfresh ih =>
    obtain ⟨hfamily, hfounded, hrooted⟩ := ih
    exact ⟨hfamily.new hfresh rfl,
      Arena.forall_update (fun j h _ hj => hfounded j h hj) (ScalarGraph.founded_new id),
      fun f hf => (hrooted f hf).continues (Arena.continues_fresh hfresh)⟩
  | fork id _ hfresh hg ih =>
    obtain ⟨hfamily, hfounded, hrooted⟩ := ih
    exact ⟨hfamily.fork hfresh hg rfl rfl fun _ _ => rfl,
      Arena.forall_update (fun j h _ hj => hfounded j h hj) ((hfounded _ _ hg).fork id),
      fun f hf => (hrooted f hf).continues (Arena.continues_fresh hfresh)⟩
  | grow _ hg hgrow ih =>
    obtain ⟨hfamily, hfounded, hrooted⟩ := ih
    exact ⟨hfamily.grow hg hgrow.arena,
      Arena.forall_update (fun j h _ hj => hfounded j h hj) ((hfounded _ _ hg).grow hgrow),
      fun f hf => (hrooted f hf).continues (Arena.continues_grow hg hgrow.arena)⟩
  | declare _ hg hf ih =>
    obtain ⟨hfamily, hfounded, hrooted⟩ := ih
    refine ⟨hfamily, hfounded, List.forall_mem_cons.mpr ⟨?_, hrooted⟩⟩
    have hid := hfamily.id _ _ hg
    exact ScalarFunction.rooted_declare (by rw [← hg]; exact congrArg _ hid) (hfounded _ _ hg) hf
  | init _ hg hf hinit ih =>
    obtain ⟨hfamily, hfounded, hrooted⟩ := ih
    exact ⟨hfamily, hfounded, List.forall_mem_cons.mpr
      ⟨ScalarFunction.rooted_init hfamily hg (hrooted _ hf) hinit, hrooted⟩⟩
  | clear _ hf hclear ih =>
    obtain ⟨hfamily, hfounded, hrooted⟩ := ih
    exact ⟨hfamily, hfounded, List.forall_mem_cons.mpr
      ⟨ScalarFunction.rooted_clear (hrooted _ hf) hclear, hrooted⟩⟩
  | settle _ _ hf ih =>
    obtain ⟨hfamily, hfounded, hrooted⟩ := ih
    exact ⟨hfamily, hfounded, List.forall_mem_cons.mpr
      ⟨ScalarFunction.rooted_settle (hrooted _ hf), hrooted⟩⟩

theorem family (hist : ScalarHistory gs fs) : ScalarGraph.arena.Family gs := hist.invariant.1

theorem founded (hist : ScalarHistory gs fs) {i : GraphId} {g : ScalarGraph} (hg : gs i = some g) :
    g.Founded :=
  hist.invariant.2.1 i g hg

theorem rooted (hist : ScalarHistory gs fs) {f : ScalarFunction} (hf : f ∈ fs) : f.Rooted gs :=
  hist.invariant.2.2 f hf

/-- A tape was compiled from expressions, which are those that the function has, if it has not dropped
them. It resides in all graphs that pass the check of ownership, and the graph of its handles is one of
them. -/
theorem exists_resides (hist : ScalarHistory gs fs) {f : ScalarFunction} (hf : f ∈ fs)
    {tape : ScalarTape} (htape : f.stage.tape? = some tape) :
    ∃ e, f.Holds e ∧ (∀ e', f.stage.expressions? = some e' → e' = e) ∧
      (∃ h, gs f.owner.graph = some h ∧ f.livesIn h = true) ∧
      ∀ {i : GraphId} {g : ScalarGraph}, gs i = some g → f.livesIn g = true →
        ScalarTape.Resides g e.inputs e.outputs tape := by
  obtain ⟨h, hh, hlast, hrooted⟩ := hist.rooted hf
  have hfrom : ∃ e, (f.Holds e ∧ f.CompiledLike h e tape) ∧
      ∀ e', f.stage.expressions? = some e' → e' = e := by
    cases hstage : f.stage with
    | declared e =>
      rw [hstage] at htape
      cases htape
    | initialized e tape' =>
      rw [hstage] at hrooted htape
      cases htape
      exact ⟨e, hrooted, fun e' he' => (Option.some.inj he').symm⟩
    | cleared tape' =>
      rw [hstage] at hrooted htape
      cases htape
      obtain ⟨e, he⟩ := hrooted
      exact ⟨e, he, fun _ he' => nomatch he'⟩
  obtain ⟨e, ⟨hholds, origin, hcompiled, horigin, hagree⟩, hown⟩ := hfrom
  have hlives : f.livesIn h = true := by
    have hid : h.lineage.id = f.owner.graph := hist.family.id _ _ hh
    simp [ScalarFunction.livesIn, Lineage.sharesOwner, Lineage.shares, hid]
  refine ⟨e, hholds, hown, ⟨h, hh, hlives⟩, fun {i g} hg hlives => ?_⟩
  obtain ⟨hsize, hshared⟩ := hist.family.agreeBelow hg hh hlast hlives
  exact ⟨origin, f.owner.last + 1, hcompiled, hagree.trans (.of_arena hshared), horigin, hsize,
    fun p hp => Nat.lt_succ_of_le (hholds.inputs p hp),
    fun p hp => Nat.lt_succ_of_le (hholds.outputs p hp)⟩

/-- **Tapes reside in all graphs that pass the check of ownership.** -/
theorem resides (hist : ScalarHistory gs fs) {f : ScalarFunction} (hf : f ∈ fs)
    {e : ScalarFunction.Expressions} {tape : ScalarTape} (hstage : f.stage = .initialized e tape)
    {i : GraphId} {g : ScalarGraph} (hg : gs i = some g) (hlives : f.livesIn g = true) :
    f.Holds e ∧ ScalarTape.Resides g e.inputs e.outputs tape := by
  have htape : f.stage.tape? = some tape := by rw [hstage]; rfl
  obtain ⟨e', hholds, hown, -, hresides⟩ := hist.exists_resides hf htape
  obtain rfl := hown e (by rw [hstage]; rfl)
  exact ⟨hholds, hresides hg hlives⟩

end ScalarHistory

end Fluxion
