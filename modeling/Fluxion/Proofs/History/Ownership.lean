import Fluxion.Proofs.History.Names
import Fluxion.Proofs.Scalar.Irreducible
import Mathlib.Logic.Relation

/-!
# The check of ownership is sound

Graphs are made, copied and asked for expressions, functions are declared in them, initialized and
cleared, one step after another. Copies of copies go on growing on their own, so the same index means
different things in different graphs. The check of ownership lets a function into those graphs only
that have its expressions: whatever has happened, a graph that passes has the nodes of the owner up to
the last one that counts, with the same names, and so it stays whatever happens to either graph. A
function therefore compiles to one tape, in whichever graph that passes.

## Main definitions

* `ScalarWorld`, `MatrixWorld` — all graphs and functions of a kind
* `ScalarWorld.Step`, `MatrixWorld.Step` — one thing that happens
* `Arena.KeepsShared` — graphs that pass the check agree at every later time

## Main results

* `ScalarWorld.kept_of_reachable`, `MatrixWorld.kept_of_reachable` — what every step keeps
* `ownership_sound` — **graphs that pass the check agree, and functions compile to one tape in them**
-/

namespace Fluxion

/-! ### Families over time -/

namespace Arena

variable {G E : Type} {A : Arena G E} {g h k : G} {gs hs ks : GraphId → Option G}

theorem Grows.trans (hgh : A.Grows g h) (hhk : A.Grows h k) : A.Grows g k :=
  ⟨hhk.lineage.trans hgh.lineage, Nat.le_trans hgh.size_le hhk.size_le,
    hgh.agreeBelow.trans (hhk.agreeBelow.mono hgh.size_le)⟩

theorem Continues.refl (gs : GraphId → Option G) : A.Continues gs gs :=
  fun _ g hg => ⟨g, hg, .refl g⟩

theorem Continues.trans (hgh : A.Continues gs hs) (hhk : A.Continues hs ks) : A.Continues gs ks := by
  intro i g hg
  obtain ⟨h, hh, hgrow⟩ := hgh i g hg
  obtain ⟨k, hk, hgrow'⟩ := hhk i h hh
  exact ⟨k, hk, hgrow.trans hgrow'⟩

/-- Wherever the check of ownership says now that a graph has the nodes of another one up to some node,
the two agree in them later, and they are what they are now. -/
def KeepsShared (A : Arena G E) (gs hs : GraphId → Option G) : Prop :=
  ∀ i owner g o last, gs i = some g → gs owner = some o → last < A.size o →
    (A.lineage g).shares owner last = true →
    ∃ g' o', hs i = some g' ∧ hs owner = some o' ∧ A.lineage g' = A.lineage g ∧
      ∀ n ≤ last, A.entry g' n = A.entry o' n ∧ A.entry g' n = A.entry g n

theorem Family.keepsShared (hgs : A.Family gs) (hlater : A.Continues gs hs) :
    A.KeepsShared gs hs := by
  intro i owner g o last hg ho hlast hshares
  obtain ⟨hlt, hagree⟩ := hgs.agreeBelow hg ho hlast hshares
  obtain ⟨g', hg', hgrow⟩ := hlater i g hg
  obtain ⟨o', ho', hgrow'⟩ := hlater owner o ho
  refine ⟨g', o', hg', ho', hgrow.lineage, fun n hn => ?_⟩
  have hsame := hgrow.agreeBelow n (Nat.lt_of_le_of_lt hn hlt)
  have hsame' := hgrow'.agreeBelow n (Nat.lt_of_le_of_lt hn hlast)
  exact ⟨hsame.symm.trans ((hagree n (Nat.lt_succ_of_le hn)).symm.trans hsame'), hsame.symm⟩

/-- A graph that passes the check now agrees with what the owner was at an earlier time. -/
theorem Family.agreeBelow_earlier (hhs : A.Family hs) (hlater : A.Continues gs hs) {i j : GraphId}
    {o : G} {last : Nat} (hg : hs i = some g) (ho : gs j = some o) (hlast : last < A.size o)
    (hshares : (A.lineage g).shares j last = true) :
    last < A.size g ∧ A.AgreeBelow g o (last + 1) := by
  obtain ⟨o', ho', hgrow⟩ := hlater j o ho
  obtain ⟨hlt, hagree⟩ :=
    hhs.agreeBelow hg ho' (Nat.lt_of_lt_of_le hlast hgrow.size_le) hshares
  exact ⟨hlt, hagree.symm.trans (hgrow.agreeBelow.mono hlast).symm⟩

end Arena

/-! ### Scalar graphs -/

namespace ScalarBuilder

variable {α β : Type} {g h : ScalarGraph}

/-- Two requests of which both succeed. -/
theorem ok_of_bind {x : ScalarBuilder α} {f : α → ScalarBuilder β} {b : β}
    (hrun : (x >>= f) g = .ok b h) : ∃ a k, x g = .ok a k ∧ f a k = .ok b h := by
  simp only [Bind.bind, EStateM.bind] at hrun
  split at hrun
  · exact ⟨_, _, ‹_›, hrun⟩
  · contradiction

theorem ok_of_ofExcept {x : Except Error α} {a : α} (hrun : ofExcept x g = .ok a h) :
    x = .ok a ∧ h = g := by
  cases x with
  | error e => cases hrun
  | ok b =>
    cases hrun
    exact ⟨rfl, rfl⟩

/-- What is made last is made in the graph that is left. -/
theorem made_of_make {inputs outputs : List (SparseMatrix ScalarId)} {options : FunctionOptions}
    {f : ScalarFunction}
    (hrun : (do ofExcept (ScalarFunction.make (← get) inputs outputs options)) g = .ok f h) :
    ScalarFunction.make h inputs outputs options = .ok f := by
  obtain ⟨hmake, rfl⟩ := ok_of_ofExcept (x := ScalarFunction.make g inputs outputs options) hrun
  exact hmake

end ScalarBuilder

namespace ScalarRequest

open ScalarBuilder

/-- The functions that a request makes. -/
def made (r : ScalarRequest) (g : ScalarGraph) : List ScalarFunction :=
  match r.run g with
  | .ok fs _ => fs
  | .error .. => []

/-- Functions that are made in a graph. -/
def AllMade (fs : List ScalarFunction) (g : ScalarGraph) : Prop :=
  ∀ f ∈ fs, ∃ inputs outputs options, ScalarFunction.make g inputs outputs options = .ok f

variable {g h : ScalarGraph}

theorem allMade_one {x : ScalarBuilder ScalarFunction} {fs : List ScalarFunction}
    (hx : ∀ f h, x g = .ok f h →
      ∃ inputs outputs options, ScalarFunction.make h inputs outputs options = .ok f)
    (hrun : (do return [← x] : ScalarBuilder (List ScalarFunction)) g = .ok fs h) :
    AllMade fs h := by
  obtain ⟨f, k, hf, hpure⟩ := ok_of_bind hrun
  cases hpure
  exact List.forall_mem_singleton.mpr (hx f _ hf)

theorem allMade_nothing {α : Type} {x : ScalarBuilder α} {fs : List ScalarFunction}
    (hrun : (do let _ ← x; return [] : ScalarBuilder (List ScalarFunction)) g = .ok fs h) :
    AllMade fs h := by
  obtain ⟨a, k, -, hpure⟩ := ok_of_bind hrun
  cases hpure
  simp [AllMade]

theorem make_of_expandOn {f : MatrixFunction} {ms : List (SparseMatrix ScalarId)}
    {k : ScalarFunction} (hrun : f.expandOn ms g = .ok k h) :
    ∃ inputs outputs options, ScalarFunction.make h inputs outputs options = .ok k := by
  obtain ⟨_, _, -, hrun⟩ := ok_of_bind hrun
  obtain ⟨_, _, -, hrun⟩ := ok_of_bind hrun
  obtain ⟨_, _, -, hrun⟩ := ok_of_bind hrun
  exact ⟨_, _, _, made_of_make hrun⟩

/-- The functions that a request makes are made in the graph that it leaves. -/
theorem allMade_of_run {r : ScalarRequest} {fs : List ScalarFunction} (hrun : r.run g = .ok fs h) :
    AllMade fs h := by
  cases r with
  | jacobian f =>
    refine allMade_one (fun k l hk => ?_) hrun
    obtain ⟨_, _, -, hk⟩ := ok_of_bind hk
    exact ⟨_, _, _, made_of_make hk⟩
  | expand f =>
    refine allMade_one (fun k l hk => ?_) hrun
    obtain ⟨_, _, -, hk⟩ := ok_of_bind hk
    exact make_of_expandOn hk
  | expandWith f symbols =>
    refine allMade_one (fun k l hk => ?_) hrun
    rw [MatrixFunction.expandWith] at hk
    dsimp only at hk
    split at hk
    · obtain ⟨_, _, hthrow, -⟩ := ok_of_bind hk
      contradiction
    · exact make_of_expandOn hk
  | literal | symbol | symbolMatrix | unary | binary | sum | unaryPartial | binaryPartial | replay
  | unroll | forward | reverse | call | jac | grad | tang | hess => exact allMade_nothing hrun

theorem allMade_made (r : ScalarRequest) (g : ScalarGraph) : AllMade (r.made g) (r.after g) := by
  rw [made, ScalarRequest.after, ScalarBuilder.after]
  cases hrun : r.run g with
  | ok fs h => exact allMade_of_run hrun
  | error e h => simp [AllMade]

end ScalarRequest

/-- A function that is made is declared and initialized. -/
theorem ScalarHistory.make {gs : GraphId → Option ScalarGraph} {fs : List ScalarFunction} {i : GraphId}
    {g : ScalarGraph} (hist : ScalarHistory gs fs) (hg : gs i = some g) {made : List ScalarFunction}
    (hmade : ScalarRequest.AllMade made g) : ∃ fs', made ++ fs ⊆ fs' ∧ ScalarHistory gs fs' := by
  induction made with
  | nil => exact ⟨fs, List.Subset.refl _, hist⟩
  | cons f rest ih =>
    obtain ⟨⟨inputs, outputs, options, hf⟩, hrest⟩ := List.forall_mem_cons.mp hmade
    obtain ⟨fs', hsubset, hist'⟩ := ih hrest
    rw [ScalarFunction.make] at hf
    cases hdeclare : ScalarFunction.declare g inputs outputs options with
    | error e =>
      rw [hdeclare] at hf
      contradiction
    | ok declared =>
      rw [hdeclare] at hf
      refine ⟨f :: declared :: fs', ?_, (hist'.declare hg hdeclare).init hg (by simp) hf⟩
      exact List.cons_subset_cons f fun k hk => List.mem_cons_of_mem _ (hsubset hk)

/-- All scalar graphs and functions that there are. -/
structure ScalarWorld where
  graphs : GraphId → Option ScalarGraph
  functions : List ScalarFunction

namespace ScalarWorld

/-- Nothing. -/
def start : ScalarWorld := ⟨fun _ => none, []⟩

/-- One thing that happens: a graph is made, copied or asked for something, or a function is declared,
initialized, cleared or settled. A request may be about any function, and it may fail. -/
inductive Step : ScalarWorld → ScalarWorld → Prop
  | new {gs fs} (id : GraphId) : gs id = none →
      Step ⟨gs, fs⟩ ⟨Function.update gs id (some (.new id)), fs⟩
  | fork {gs fs i g} (id : GraphId) : gs id = none → gs i = some g →
      Step ⟨gs, fs⟩ ⟨Function.update gs id (some (g.fork id)), fs⟩
  | request {gs fs i g} (r : ScalarRequest) : gs i = some g →
      Step ⟨gs, fs⟩ ⟨Function.update gs i (some (r.after g)), r.made g ++ fs⟩
  | declare {gs fs i g inputs outputs options f} : gs i = some g →
      ScalarFunction.declare g inputs outputs options = .ok f → Step ⟨gs, fs⟩ ⟨gs, f :: fs⟩
  | init {gs fs i g f f'} : gs i = some g → f ∈ fs → f.init g = .ok f' →
      Step ⟨gs, fs⟩ ⟨gs, f' :: fs⟩
  | clear {gs fs f f'} : f ∈ fs → f.clear = .ok f' → Step ⟨gs, fs⟩ ⟨gs, f' :: fs⟩
  | settle {gs fs i g f} : gs i = some g → f ∈ fs → Step ⟨gs, fs⟩ ⟨gs, f.settle g :: fs⟩

/-- What becomes of a world in any number of steps. -/
def Leads : ScalarWorld → ScalarWorld → Prop := Relation.ReflTransGen Step

/-- What every step keeps. -/
structure Kept (w : ScalarWorld) : Prop where
  history : ∃ fs, w.functions ⊆ fs ∧ ScalarHistory w.graphs fs
  reachable : ∀ i g, w.graphs i = some g → g.Reachable
  family : ScalarGraph.namedArena.Family w.graphs

variable {w w' : ScalarWorld} {g : ScalarGraph}

theorem named_of_reachable (hg : g.Reachable) : g.Named :=
  fun e _ hn => hg.invariant.needed e _ hn

theorem kept_start : start.Kept :=
  ⟨⟨[], List.Subset.refl _, .start⟩, by simp [start], .empty⟩

/-- Functions come and go without a change to the graphs. -/
theorem Kept.functions {gs : GraphId → Option ScalarGraph} {fs : List ScalarFunction}
    {f : ScalarFunction} (hw : Kept ⟨gs, fs⟩)
    (hstep : ∀ fs', fs ⊆ fs' → ScalarHistory gs fs' → ScalarHistory gs (f :: fs')) :
    Kept ⟨gs, f :: fs⟩ := by
  obtain ⟨⟨fs', hsubset, hist⟩, hreachable, hfamily⟩ := hw
  exact ⟨⟨f :: fs', List.cons_subset_cons f hsubset, hstep fs' hsubset hist⟩, hreachable, hfamily⟩

/-- **One step**: nodes and names that are there stay, and what is known of the graphs is kept. -/
theorem Kept.step (hw : w.Kept) (hstep : Step w w') :
    w'.Kept ∧ ScalarGraph.namedArena.Continues w.graphs w'.graphs := by
  obtain ⟨⟨fs', hsubset, hist⟩, hreachable, hfamily⟩ := id hw
  cases hstep with
  | new id hfresh =>
    exact ⟨⟨⟨fs', hsubset, .new id hist hfresh⟩,
      Arena.forall_update (fun j h _ hj => hreachable j h hj) (.new id),
      hfamily.new hfresh rfl⟩, Arena.continues_fresh hfresh⟩
  | fork id hfresh hg =>
    exact ⟨⟨⟨fs', hsubset, .fork id hist hfresh hg⟩,
      Arena.forall_update (fun j h _ hj => hreachable j h hj) (.fork id (hreachable _ _ hg)),
      hfamily.fork hfresh hg rfl rfl fun _ _ => rfl⟩, Arena.continues_fresh hfresh⟩
  | @request gs fs i g r hg =>
    have hextends := ScalarGraph.extends_after r g
    have hgrow := (named_of_reachable (hreachable i g hg)).grows hextends.grows
    obtain ⟨fs'', hsubset', hist'⟩ := (ScalarHistory.grow hist hg hextends.grows).make
      (Function.update_self ..) (r.allMade_made g)
    refine ⟨⟨⟨fs'', fun f hf => hsubset' ?_, hist'⟩,
      Arena.forall_update (fun j h _ hj => hreachable j h hj) (.request r (hreachable i g hg)),
      hfamily.grow hg hgrow⟩, Arena.continues_grow hg hgrow⟩
    exact (List.mem_append.mp hf).elim (List.mem_append_left _)
      fun hf => List.mem_append_right _ (hsubset hf)
  | declare hg hf => exact ⟨hw.functions fun fs' _ hist => hist.declare hg hf, .refl _⟩
  | init hg hf hinit =>
    exact ⟨hw.functions fun fs' hsubset hist => hist.init hg (hsubset hf) hinit, .refl _⟩
  | clear hf hclear =>
    exact ⟨hw.functions fun fs' hsubset hist => hist.clear (hsubset hf) hclear, .refl _⟩
  | settle hg hf => exact ⟨hw.functions fun fs' hsubset hist => hist.settle hg (hsubset hf), .refl _⟩

/-- **Any number of steps.** -/
theorem Kept.leads (hw : w.Kept) (hleads : w.Leads w') :
    w'.Kept ∧ ScalarGraph.namedArena.Continues w.graphs w'.graphs := by
  induction hleads with
  | refl => exact ⟨hw, .refl _⟩
  | tail _ hstep ih =>
    obtain ⟨hkept, hcontinues⟩ := ih
    obtain ⟨hkept', hcontinues'⟩ := hkept.step hstep
    exact ⟨hkept', hcontinues.trans hcontinues'⟩

theorem kept_of_reachable (hw : start.Leads w) : w.Kept := (kept_start.leads hw).1

/-- A function compiles to one tape: that of its owner as it was at any earlier time. -/
theorem Kept.compile_eq (hw : w.Kept) (hleads : w.Leads w') {f : ScalarFunction}
    (hf : f ∈ w.functions) {e : ScalarFunction.Expressions} (he : f.stage.expressions? = some e) :
    ∃ o, w.graphs f.owner.graph = some o ∧ ∀ i g, w'.graphs i = some g → f.checkGraph g = .ok () →
      ScalarTape.compile g e.inputs e.outputs = ScalarTape.compile o e.inputs e.outputs := by
  obtain ⟨fs', hsubset, hist⟩ := hw.history
  obtain ⟨o, ho, hlast, hstage⟩ := hist.rooted (hsubset hf)
  have hholds : f.Holds e := by
    cases hs : f.stage with
    | declared e' =>
      rw [hs] at he hstage
      obtain rfl := Option.some.inj he
      exact hstage
    | initialized e' tape =>
      rw [hs] at he hstage
      obtain rfl := Option.some.inj he
      exact hstage.1
    | cleared tape =>
      rw [hs] at he
      contradiction
  refine ⟨o, ho, fun i g hg hcheck => ?_⟩
  obtain ⟨hkept, hcontinues⟩ := hw.leads hleads
  have hlives : f.livesIn g = true := by
    by_contra hlives
    rw [ScalarFunction.checkGraph, if_neg hlives] at hcheck
    contradiction
  obtain ⟨hlt, hagree⟩ := hkept.family.agreeBelow_earlier hcontinues hg ho hlast hlives
  exact ScalarTape.compile_congr hagree hlt hlast
    (fun p hp => Nat.lt_succ_of_le (hholds.inputs p hp))
    fun p hp => Nat.lt_succ_of_le (hholds.outputs p hp)

end ScalarWorld

/-! ### Matrix graphs -/

/-- All matrix graphs and functions that there are. -/
structure MatrixWorld where
  graphs : GraphId → Option MatrixGraph
  functions : List MatrixFunction

/-- The functions that a request makes. -/
def MatrixRequest.made (r : MatrixRequest) (g : MatrixGraph) : List MatrixFunction :=
  match r.run g with
  | .ok fs _ => fs
  | .error .. => []

namespace MatrixWorld

/-- Nothing. -/
def start : MatrixWorld := ⟨fun _ => none, []⟩

/-- One thing that happens: a graph is made, copied or asked for something, or a function is declared
or initialized. A request may be about any function that there is, and it may fail. -/
inductive Step : MatrixWorld → MatrixWorld → Prop
  | new {gs fs} (id : GraphId) : gs id = none →
      Step ⟨gs, fs⟩ ⟨Function.update gs id (some (.new id)), fs⟩
  | fork {gs fs i g} (id : GraphId) : gs id = none → gs i = some g →
      Step ⟨gs, fs⟩ ⟨Function.update gs id (some (g.fork id)), fs⟩
  | request {gs fs i g} (r : MatrixRequest) : gs i = some g →
      (∀ f, r.function? = some f → f ∈ fs) →
      Step ⟨gs, fs⟩ ⟨Function.update gs i (some (r.after g)), r.made g ++ fs⟩
  | declare {gs fs i g inputs outputs options f} : gs i = some g →
      MatrixFunction.declare g inputs outputs options = .ok f → Step ⟨gs, fs⟩ ⟨gs, f :: fs⟩
  | init {gs fs i g f f'} : gs i = some g → f ∈ fs → f.init g = .ok f' →
      Step ⟨gs, fs⟩ ⟨gs, f' :: fs⟩

/-- What becomes of a world in any number of steps. -/
def Leads : MatrixWorld → MatrixWorld → Prop := Relation.ReflTransGen Step

/-- What every step keeps. -/
structure Kept (w : MatrixWorld) : Prop where
  history : MatrixHistory w.graphs w.functions
  family : MatrixGraph.namedArena.Family w.graphs

variable {w w' : MatrixWorld}

theorem kept_start : start.Kept := ⟨.start, .empty⟩

/-- **One step**: nodes and names that are there stay, and what is known of the graphs is kept. -/
theorem Kept.step (hw : w.Kept) (hstep : Step w w') :
    w'.Kept ∧ MatrixGraph.namedArena.Continues w.graphs w'.graphs := by
  obtain ⟨hist, hfamily⟩ := hw
  cases hstep with
  | new id hfresh => exact ⟨⟨.new id hist hfresh, hfamily.new hfresh rfl⟩, Arena.continues_fresh hfresh⟩
  | fork id hfresh hg =>
    exact ⟨⟨.fork id hist hfresh hg, hfamily.fork hfresh hg rfl rfl fun _ _ => rfl⟩,
      Arena.continues_fresh hfresh⟩
  | @request gs fs i g r hg hused =>
    have htyped := hist.invariant.2.1 _ _ hg
    have hkeeps := r.keeps_run (fun f hf hlives =>
      (hist.invariant.2.2 f (hused f hf)).ready hist.invariant.1 hg hlives) htyped
    have hgrow : g.Grows (r.after g) := by
      rw [MatrixRequest.after]
      cases hrun : r.run g with
      | ok made h =>
        rw [hrun] at hkeeps
        exact hkeeps.1
      | error e h =>
        rw [hrun] at hkeeps
        exact hkeeps.1
    have hist' : MatrixHistory (Function.update gs i (some (r.after g))) (r.made g ++ fs) := by
      rw [MatrixRequest.after, MatrixRequest.made]
      cases hrun : r.run g with
      | ok made h => exact .request r hist hg hused hrun
      | error e h => exact .failure r hist hg hused hrun
    have hnamed := htyped.grows hgrow
    exact ⟨⟨hist', hfamily.grow hg hnamed⟩, Arena.continues_grow hg hnamed⟩
  | declare hg hf => exact ⟨⟨.declare hist hg hf, hfamily⟩, .refl _⟩
  | init hg hf hinit => exact ⟨⟨.init hist hg hf hinit, hfamily⟩, .refl _⟩

/-- **Any number of steps.** -/
theorem Kept.leads (hw : w.Kept) (hleads : w.Leads w') :
    w'.Kept ∧ MatrixGraph.namedArena.Continues w.graphs w'.graphs := by
  induction hleads with
  | refl => exact ⟨hw, .refl _⟩
  | tail _ hstep ih =>
    obtain ⟨hkept, hcontinues⟩ := ih
    obtain ⟨hkept', hcontinues'⟩ := hkept.step hstep
    exact ⟨hkept', hcontinues.trans hcontinues'⟩

theorem kept_of_reachable (hw : start.Leads w) : w.Kept := (kept_start.leads hw).1

/-- A function compiles to one tape: that of its owner as it was at any earlier time. -/
theorem Kept.compile_eq (hw : w.Kept) (hleads : w.Leads w') {f : MatrixFunction}
    (hf : f ∈ w.functions) :
    ∃ o, w.graphs f.owner.graph = some o ∧ ∀ i g, w'.graphs i = some g → f.checkGraph g = .ok () →
      MatrixTape.compile g f.inputs f.outputs = MatrixTape.compile o f.inputs f.outputs := by
  obtain ⟨o, ho, ⟨bound, hbound, hsize, hin, hout⟩, -⟩ := hw.history.invariant.2.2 f hf
  refine ⟨o, ho, fun i g hg hcheck => ?_⟩
  obtain ⟨hkept, hcontinues⟩ := hw.leads hleads
  have hlives : f.livesIn g = true := by
    by_contra hlives
    rw [MatrixFunction.checkGraph, if_neg hlives] at hcheck
    contradiction
  rcases hbound with rfl | rfl
  · exact MatrixTape.compile_congr (fun _ hlt => absurd hlt (Nat.not_lt_zero _)) (Nat.zero_le _)
      hsize hin hout
  · obtain ⟨hlt, hagree⟩ := hkept.family.agreeBelow_earlier hcontinues hg ho hsize hlives
    exact MatrixTape.compile_congr hagree hlt hsize hin hout

end MatrixWorld

/-! ### Both kinds -/

/-- **The check of ownership is sound**, for graphs of both kinds, after any steps and whatever comes
later. Graphs that pass it for some last node have the same nodes up to it as the owner, with the same
patterns and names. And a function compiles to the same tape, or fails for the same reason, in every
graph that passes as in its owner. -/
theorem ownership_sound :
    (∀ w w' : ScalarWorld, ScalarWorld.start.Leads w → w.Leads w' →
      ScalarGraph.namedArena.KeepsShared w.graphs w'.graphs ∧
      ∀ f ∈ w.functions, ∀ e, f.stage.expressions? = some e →
        ∃ o, w.graphs f.owner.graph = some o ∧
          ∀ i g, w'.graphs i = some g → f.checkGraph g = .ok () →
            ScalarTape.compile g e.inputs e.outputs = ScalarTape.compile o e.inputs e.outputs) ∧
    (∀ w w' : MatrixWorld, MatrixWorld.start.Leads w → w.Leads w' →
      MatrixGraph.namedArena.KeepsShared w.graphs w'.graphs ∧
      ∀ f ∈ w.functions, ∃ o, w.graphs f.owner.graph = some o ∧
        ∀ i g, w'.graphs i = some g → f.checkGraph g = .ok () →
          MatrixTape.compile g f.inputs f.outputs = MatrixTape.compile o f.inputs f.outputs) := by
  refine ⟨fun w w' hw hleads => ?_, fun w w' hw hleads => ?_⟩
  · have hkept := ScalarWorld.kept_of_reachable hw
    exact ⟨hkept.family.keepsShared (hkept.leads hleads).2,
      fun f hf e he => hkept.compile_eq hleads hf he⟩
  · have hkept := MatrixWorld.kept_of_reachable hw
    exact ⟨hkept.family.keepsShared (hkept.leads hleads).2, fun f hf => hkept.compile_eq hleads hf⟩

namespace ForkedSymbols

/-- A graph with a symbol. -/
def trunk : ScalarGraph := (ScalarRequest.symbol "x").after (.new (.numbered 0))

/-- The graph with another symbol, made after it was copied. -/
def original : ScalarGraph := (ScalarRequest.symbol "y").after trunk

/-- The copy with another symbol, which has the same index under another name. -/
def copy : ScalarGraph := (ScalarRequest.symbol "z").after (trunk.fork (.numbered 1))

/-- The function that returns the first symbol. -/
def function : ScalarFunction where
  options := {}
  owner := ⟨.numbered 0, 3⟩
  inPatterns := [.scalar]
  outPatterns := [.scalar]
  stage := .declared ⟨[.scalar ⟨3⟩], [.scalar ⟨3⟩], none⟩

/-- Both graphs and the function. -/
def world : ScalarWorld where
  graphs := Function.update (Function.update (Function.update (Function.update (Function.update
    (fun _ => none) (.numbered 0) (some (.new (.numbered 0)))) (.numbered 0) (some trunk))
    (.numbered 1) (some (trunk.fork (.numbered 1)))) (.numbered 0) (some original))
    (.numbered 1) (some copy)
  functions := [function]

theorem leads_world : ScalarWorld.start.Leads world := by
  have hnew := Relation.ReflTransGen.single
    (@ScalarWorld.Step.new (fun _ => none) [] (.numbered 0) rfl)
  have htrunk := hnew.tail (.request (.symbol "x") (i := .numbered 0) (Function.update_self ..))
  have hfork := htrunk.tail (.fork (.numbered 1) (i := .numbered 0) rfl (Function.update_self ..))
  have horiginal := hfork.tail (.request (.symbol "y") (i := .numbered 0) (g := trunk) rfl)
  have hcopy := horiginal.tail
    (.request (.symbol "z") (i := .numbered 1) (g := trunk.fork (.numbered 1)) rfl)
  have hdeclare : ScalarFunction.declare original [.scalar ⟨3⟩] [.scalar ⟨3⟩] {} = .ok function := rfl
  exact hcopy.tail (.declare (i := .numbered 0) rfl hdeclare)

theorem ownership_sound_world :
    original.name? ⟨4⟩ = some "y" ∧ copy.name? ⟨4⟩ = some "z" ∧
    (∃ g o, world.graphs (.numbered 1) = some g ∧ world.graphs (.numbered 0) = some o ∧
      g.lineage = copy.lineage ∧ ∀ n ≤ 3,
        ScalarGraph.namedArena.entry g n = ScalarGraph.namedArena.entry o n ∧
          ScalarGraph.namedArena.entry g n = ScalarGraph.namedArena.entry copy n) ∧
    ∃ o, world.graphs (.numbered 0) = some o ∧
      ScalarTape.compile copy [.scalar ⟨3⟩] [.scalar ⟨3⟩]
        = ScalarTape.compile o [.scalar ⟨3⟩] [.scalar ⟨3⟩] := by
  obtain ⟨hshared, hcompile⟩ := ownership_sound.1 world world leads_world .refl
  obtain ⟨o, ho, hcompile⟩ := hcompile function (List.mem_singleton_self _) _ rfl
  exact ⟨by decide, by decide, hshared (.numbered 1) (.numbered 0) copy original 3 rfl rfl (by decide)
    (by decide), o, ho, hcompile (.numbered 1) copy rfl (by decide)⟩

end ForkedSymbols

end Fluxion
