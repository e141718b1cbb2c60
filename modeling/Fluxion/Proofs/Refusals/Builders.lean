import Fluxion.Proofs.History.Matrix
import Fluxion.Proofs.Room.Building

/-!
# Builders that are refused

A builder that refuses its operands should leave the graph as it was. All of them look at their
operands before they add anything, and what they add then is not refused any more: interning fails
for a handle that the graph does not have, and a table may be too large, but neither is an answer to
wrong shapes.

Embedded calls are the exception. Arguments are put on the patterns of the inputs one after another,
and each is looked at when its turn comes. So a call that is refused at a later argument leaves what
was added for the arguments before it.

## Main definitions

* `Error.IsRefusal` — a cause that answers the request
* `MatrixBuilder.Unrefused`, `MatrixBuilder.Traceless` — what a request that fails was not, or leaves
* `MatrixBuilder.Misfit` — a call that is refused at one of its arguments

## Main results

* `MatrixRequest.traceless_run` — requests for expressions that are no calls
* `MatrixBuilder.callRoutine_error` — calls
* `MatrixHistory.eq_of_refused` — **builders that are refused leave the graph as it was**, except for
  calls
* `EmbeddedPair.call_leaves_argument` — what a call leaves that is refused at its second argument
-/

namespace Fluxion

/-- The cause answers the request. The other causes are about broken preconditions, and about tables
that do not fit into memory. -/
def Error.IsRefusal : Error → Prop
  | .precondition _ | .outOfRange | .tooLarge => False
  | _ => True

namespace MatrixBuilder

variable {α β : Type} {g h : MatrixGraph} {e : Error}

/-! ### Requests that read -/

/-- Where a request fails that does one thing after another, one of the two fails. -/
theorem error_of_bind {x : MatrixBuilder α} {f : α → MatrixBuilder β}
    (hrun : (x >>= f) g = .error e h) :
    x g = .error e h ∨ ∃ a k, x g = .ok a k ∧ f a k = .error e h := by
  simp only [Bind.bind, EStateM.bind] at hrun
  cases hx : x g with
  | ok a k =>
    rw [hx] at hrun
    exact .inr ⟨a, k, rfl, hrun⟩
  | error d k =>
    rw [hx] at hrun
    cases hrun
    exact .inl rfl

/-- The request adds nothing, whatever its outcome. -/
def Reads (x : MatrixBuilder α) : Prop :=
  ∀ g, (∃ a, x g = .ok a g) ∨ ∃ e, x g = .error e g

theorem reads_pure (a : α) : Reads (pure a) := fun _ => .inl ⟨a, rfl⟩

theorem reads_throw (e : Error) : Reads (throw e : MatrixBuilder α) := fun _ => .inr ⟨e, rfl⟩

theorem reads_get : Reads (get : MatrixBuilder MatrixGraph) := fun g => .inl ⟨g, rfl⟩

theorem reads_ofExcept (x : Except Error α) : Reads (ofExcept x) := by
  cases x with
  | ok a => exact reads_pure a
  | error e => exact reads_throw e

theorem Reads.bind {x : MatrixBuilder α} {f : α → MatrixBuilder β} (hx : Reads x)
    (hf : ∀ a, Reads (f a)) : Reads (x >>= f) := by
  intro g
  simp only [Bind.bind, EStateM.bind]
  rcases hx g with ⟨a, hrun⟩ | ⟨e, hrun⟩
  · rw [hrun]
    exact hf a g
  · rw [hrun]
    exact .inr ⟨e, rfl⟩

theorem reads_patternOf (a : MatrixId) : Reads (patternOf a) := by
  refine reads_get.bind fun g => ?_
  split
  · exact reads_pure _
  · exact reads_throw _

theorem Reads.mapM {f : α → MatrixBuilder β} (hf : ∀ a, Reads (f a)) (as : List α) :
    Reads (as.mapM f) := by
  induction as with
  | nil =>
    rw [List.mapM_nil]
    exact reads_pure _
  | cons a rest ih =>
    rw [List.mapM_cons]
    exact (hf a).bind fun b => ih.bind fun bs => reads_pure (b :: bs)

/-! ### Requests that are not refused -/

/-- The request is not refused. If it fails, it is for a broken precondition or for a table that is
too large. -/
def Unrefused (x : MatrixBuilder α) (g : MatrixGraph) : Prop :=
  ∀ e h, x g = .error e h → ¬ e.IsRefusal

theorem unrefused_pure (a : α) : Unrefused (pure a) g := fun _ _ hrun => by contradiction

theorem Unrefused.bind {x : MatrixBuilder α} {f : α → MatrixBuilder β} (hx : Unrefused x g)
    (hf : ∀ a h, x g = .ok a h → Unrefused (f a) h) : Unrefused (x >>= f) g := by
  intro e h hrun
  rcases error_of_bind hrun with hrun | ⟨a, k, hok, hrun⟩
  · exact hx e h hrun
  · exact hf a k hok e h hrun

theorem unrefused_get_bind {f : MatrixGraph → MatrixBuilder β} (hf : Unrefused (f g) g) :
    Unrefused (get >>= f) g :=
  hf

/-- What is granted is not refused: a table may be too large. -/
theorem Fulfills.unrefused {x : MatrixBuilder α} {Q : α → MatrixGraph → Prop}
    (hx : Fulfills False x g Q) (hg : g.WellTyped) : Unrefused x g := by
  intro e h hrun
  rw [(hx False.elim).eq_tooLarge hg hrun]
  exact id

theorem unrefused_patternOf (a : MatrixId) : Unrefused (patternOf a) g := by
  intro e h hrun
  cases ha : g.pattern? a with
  | some p =>
    rw [patternOf_of_some ha] at hrun
    contradiction
  | none =>
    rw [patternOf_of_none ha] at hrun
    cases hrun
    exact id

theorem eq_of_patternOf {a : MatrixId} {p : Pattern} (hrun : patternOf a g = .ok p h) :
    h = g ∧ g.pattern? a = some p := by
  cases ha : g.pattern? a with
  | some q =>
    rw [patternOf_of_some ha] at hrun
    cases hrun
    exact ⟨rfl, rfl⟩
  | none =>
    rw [patternOf_of_none ha] at hrun
    contradiction

theorem Unrefused.mapM {f : α → MatrixBuilder β} (hf : ∀ a g, Unrefused (f a) g) (as : List α) :
    Unrefused (as.mapM f) g := by
  induction as generalizing g with
  | nil =>
    rw [List.mapM_nil]
    exact unrefused_pure _
  | cons a rest ih =>
    rw [List.mapM_cons]
    exact (hf a g).bind fun b h _ => ih.bind fun bs k _ => unrefused_pure (b :: bs)

theorem unrefused_intern (n : MatrixNode) (p : Pattern) : Unrefused (intern n p) g := by
  intro e h hrun
  rw [intern] at hrun
  split at hrun
  · contradiction
  · cases hrun
    exact id

theorem unrefused_fill (p : Pattern) (v : Binary64) : Unrefused (fill p v) g := by
  rw [fill, constant]
  exact unrefused_intern _ _

theorem unrefused_gather (arguments : List MatrixId) (map : GatherMap) (p : Pattern) :
    Unrefused (gather arguments map p) g := by
  rw [gather]
  split
  · exact unrefused_fill p 0.0
  · dsimp only
    split
    · refine (unrefused_patternOf _).bind fun q h _ => ?_
      split
      · exact unrefused_pure _
      · exact unrefused_intern _ _
    · exact unrefused_intern _ _

theorem unrefused_scatter (a : MatrixId) (map : ScatterMap) (p : Pattern) :
    Unrefused (scatter a map p) g := by
  rw [scatter]
  split
  · exact unrefused_fill p 0.0
  · exact unrefused_intern _ _

/-- A projection is not refused if it keeps the shape. -/
theorem unrefused_project {a : MatrixId} {p : Pattern}
    (hshape : ∀ q, g.pattern? a = some q → q.shape = p.shape) : Unrefused (project a p) g := by
  refine (unrefused_patternOf a).bind fun q h hq => ?_
  obtain ⟨rfl, hq⟩ := eq_of_patternOf hq
  rw [if_neg (not_not.mpr (hshape q hq))]
  split
  · exact unrefused_pure a
  · exact unrefused_gather _ _ p

theorem unrefused_ofExcept {x : Except Error α} (hx : ∀ e, x = .error e → ¬ e.IsRefusal) :
    Unrefused (ofExcept x) g := by
  cases x with
  | ok a => exact unrefused_pure a
  | error d =>
    intro e h hrun
    cases hrun
    exact hx d rfl

theorem unrefused_densify (a : MatrixId) : Unrefused (densify a) g := by
  refine (unrefused_patternOf a).bind fun q h _ => Unrefused.bind (unrefused_ofExcept fun e he => ?_)
    fun p k _ => unrefused_gather _ _ p
  rw [Pattern.denseOf] at he
  split at he
  · contradiction
  · cases he
    exact id

theorem unrefused_transpose (a : MatrixId) : Unrefused (transpose a) g := by
  refine (unrefused_patternOf a).bind fun q h _ => Unrefused.bind (unrefused_ofExcept fun e he => ?_)
    fun p k _ => unrefused_gather _ _ p
  rw [Pattern.transposeOf] at he
  split at he
  · contradiction
  · cases he
    exact id

theorem unrefused_unary (op : UnaryOp) (a : MatrixId) : Unrefused (unary op a) g := by
  have hrest : ∀ b k, Unrefused (unaryStored op b) k := fun b k => by
    refine (unrefused_patternOf b).bind fun p k _ => unrefused_get_bind ?_
    split
    · exact Unrefused.bind (fun _ _ hrun => by contradiction) fun _ _ _ => unrefused_intern _ _
    · exact unrefused_intern _ _
  rw [unary_eq]
  refine Unrefused.bind ?_ fun b k _ => hrest b k
  split
  · exact unrefused_pure a
  · exact unrefused_densify a

/-! ### Requests that leave no trace where they are refused -/

/-- A request that is refused leaves the graph as it was. -/
def Traceless (x : MatrixBuilder α) (g : MatrixGraph) : Prop :=
  ∀ e h, x g = .error e h → e.IsRefusal → h = g

theorem Unrefused.traceless {x : MatrixBuilder α} (hx : Unrefused x g) : Traceless x g :=
  fun e h hrun he => absurd he (hx e h hrun)

theorem Reads.traceless {x : MatrixBuilder α} (hx : Reads x) : Traceless x g := by
  intro e h hrun _
  rcases hx g with ⟨a, hok⟩ | ⟨d, herror⟩
  · rw [hok] at hrun
    contradiction
  · rw [herror] at hrun
    cases hrun
    rfl

/-- Checks that come first may refuse. -/
theorem Reads.traceless_bind {x : MatrixBuilder α} {f : α → MatrixBuilder β} (hx : Reads x)
    (hf : ∀ a, x g = .ok a g → Traceless (f a) g) : Traceless (x >>= f) g := by
  intro e h hrun he
  rcases error_of_bind hrun with hrun | ⟨a, k, hok, hrun⟩
  · exact hx.traceless e h hrun he
  · rcases hx g with ⟨b, hb⟩ | ⟨d, hd⟩
    · obtain ⟨rfl, rfl⟩ := EStateM.Result.ok.inj (hb.symm.trans hok)
      exact hf b hok e h hrun he
    · rw [hd] at hok
      contradiction

theorem traceless_patternOf_bind {a : MatrixId} {f : Pattern → MatrixBuilder β}
    (hf : ∀ p, g.pattern? a = some p → Traceless (f p) g) : Traceless (patternOf a >>= f) g :=
  (reads_patternOf a).traceless_bind fun p hp => hf p (eq_of_patternOf hp).2

theorem traceless_ofExcept_bind {x : Except Error α} {f : α → MatrixBuilder β}
    (hf : ∀ a, x = .ok a → Traceless (f a) g) : Traceless (ofExcept x >>= f) g := by
  refine (reads_ofExcept x).traceless_bind fun a ha => ?_
  cases x with
  | ok b =>
    cases ha
    exact hf a rfl
  | error d => contradiction

/-- After the last request that may be refused come others that are not. -/
theorem Traceless.bind {x : MatrixBuilder α} {f : α → MatrixBuilder β} (hx : Traceless x g)
    (hf : ∀ a h, x g = .ok a h → Unrefused (f a) h) : Traceless (x >>= f) g := by
  intro e h hrun he
  rcases error_of_bind hrun with hrun | ⟨a, k, hok, hrun⟩
  · exact hx e h hrun he
  · exact absurd he (hf a k hok e h hrun)

theorem traceless_project (a : MatrixId) (p : Pattern) : Traceless (project a p) g := by
  refine traceless_patternOf_bind fun q _ => ?_
  split
  · exact (reads_throw _).traceless
  · split
    · exact (reads_pure a).traceless
    · exact (unrefused_gather _ _ p).traceless

theorem traceless_vertcat (parts : List MatrixId) : Traceless (vertcat parts) g := by
  refine (Reads.mapM reads_patternOf parts).traceless_bind fun patterns _ => ?_
  split
  · exact (unrefused_fill _ _).traceless
  · split
    · exact (reads_throw _).traceless
    · exact traceless_ofExcept_bind fun p _ => (unrefused_gather _ _ p).traceless

theorem traceless_horzcat (parts : List MatrixId) : Traceless (horzcat parts) g := by
  refine (Reads.mapM reads_patternOf parts).traceless_bind fun patterns _ => ?_
  split
  · exact (unrefused_fill _ _).traceless
  · split
    · exact (reads_throw _).traceless
    · exact traceless_ofExcept_bind fun p _ => (unrefused_gather _ _ p).traceless

theorem traceless_element (a : MatrixId) (r c : Nat) : Traceless (element a r c) g := by
  refine traceless_patternOf_bind fun p _ => ?_
  split
  · exact (reads_throw _).traceless
  · exact (unrefused_gather _ _ _).traceless

theorem traceless_nonzeros (a : MatrixId) (numbers : List Nat) : Traceless (nonzeros a numbers) g := by
  refine traceless_patternOf_bind fun p _ => ?_
  dsimp only
  split
  · exact (reads_throw _).traceless
  · exact (unrefused_gather _ _ _).traceless

theorem traceless_product (a b : MatrixId) : Traceless (product a b) g := by
  refine traceless_patternOf_bind fun pa _ => traceless_patternOf_bind fun pb _ => ?_
  split
  · exact (reads_throw _).traceless
  · exact traceless_ofExcept_bind fun p _ => (unrefused_intern _ p).traceless

theorem traceless_lift (value guess : MatrixId) : Traceless (lift value guess) g := by
  refine traceless_patternOf_bind fun p _ => traceless_patternOf_bind fun q hq => ?_
  split
  · exact (reads_throw _).traceless
  · rename_i hshape
    refine (Unrefused.bind (unrefused_project fun r hr => ?_) fun d k _ =>
      unrefused_intern _ p).traceless
    obtain rfl := Option.some.inj (hq.symm.trans hr)
    exact not_not.mp hshape

/-- Operands whose shapes fit are not refused, so a refusal comes from the check of the shapes. -/
theorem traceless_binary (hg : g.WellTyped) (op : BinaryOp) (a b : MatrixId) :
    Traceless (binary op a b) g := by
  cases hpa : g.pattern? a with
  | none =>
    refine traceless_patternOf_bind fun pa ha => ?_
    rw [hpa] at ha
    contradiction
  | some pa =>
    cases hpb : g.pattern? b with
    | none =>
      refine traceless_patternOf_bind fun _ _ => traceless_patternOf_bind fun pb hb => ?_
      rw [hpb] at hb
      contradiction
    | some pb =>
      by_cases hfit : pa.shape = pb.shape ∨ pa.isScalar = true ∨ pb.isScalar = true
      · exact ((fulfills_binary op hpa hpb hfit).unrefused hg).traceless
      · refine traceless_patternOf_bind fun pa' ha => traceless_patternOf_bind fun pb' hb =>
          traceless_ofExcept_bind fun p hp => ?_
        obtain rfl := Option.some.inj (hpa.symm.trans ha)
        obtain rfl := Option.some.inj (hpb.symm.trans hb)
        exact absurd (elementwisePattern_shape hp).2 hfit

/-! ### Calls -/

/-- A list of requests fails at one of them, after those before it have been carried out. -/
theorem error_of_mapM {f : α → MatrixBuilder β} {as : List α} (hrun : as.mapM f g = .error e h) :
    ∃ before a after bs k, as = before ++ a :: after ∧ before.mapM f g = .ok bs k ∧
      f a k = .error e h := by
  induction as generalizing g with
  | nil =>
    rw [List.mapM_nil] at hrun
    contradiction
  | cons a rest ih =>
    rw [List.mapM_cons] at hrun
    rcases error_of_bind hrun with hrun | ⟨b, k, hok, hrun⟩
    · exact ⟨[], a, rest, [], g, rfl, rfl, hrun⟩
    · rcases error_of_bind hrun with hrun | ⟨bs, l, -, hrun⟩
      · obtain ⟨before, a', after, bs, l, rfl, hbefore, herror⟩ := ih hrun
        refine ⟨a :: before, a', after, b :: bs, l, rfl, ?_, herror⟩
        rw [List.mapM_cons]
        simp only [Bind.bind, EStateM.bind, hok, hbefore]
        rfl
      · contradiction

/-- The arguments of a call are put on the patterns of their inputs, one after another. -/
def placeArguments (arguments : List (MatrixId × Pattern)) : MatrixBuilder (List MatrixId) :=
  arguments.mapM fun (a, p) => callArgument a p

/-- A call of a routine that is refused at argument `a`, which has another shape than the input with
pattern `p`. The graph `h` that is left has the arguments before it on the patterns of their inputs. -/
inductive Misfit (r : Routine) (arguments : List MatrixId) (g : MatrixGraph) :
    Error → MatrixGraph → Prop
  | intro {before a p after q placed h} :
    arguments.zip r.inPatterns = before ++ (a, p) :: after →
    placeArguments before g = .ok placed h →
    h.pattern? a = some q → q.shape ≠ p.shape →
    ((∀ b ∈ before, g.pattern? b.1 = some b.2) → h = g) →
    Misfit r arguments g (.shape (.callShape p.shape q.shape)) h

/-- An argument that is on its pattern is taken as it is. -/
theorem callArgument_eq {a : MatrixId} {p : Pattern} (ha : g.pattern? a = some p) :
    callArgument a p g = .ok a g := by
  rw [callArgument]
  simp only [Bind.bind, EStateM.bind, patternOf_of_some ha, ne_eq, not_true_eq_false, if_false]
  rw [project]
  simp only [Bind.bind, EStateM.bind, patternOf_of_some ha, ne_eq, not_true_eq_false, if_false,
    if_true]
  rfl

theorem placeArguments_eq {as : List (MatrixId × Pattern)}
    (has : ∀ a ∈ as, g.pattern? a.1 = some a.2) :
    placeArguments as g = .ok (as.map Prod.fst) g := by
  unfold placeArguments at *
  induction as with
  | nil => rfl
  | cons a rest ih =>
    obtain ⟨ha, hrest⟩ := List.forall_mem_cons.mp has
    rw [List.mapM_cons]
    simp only [Bind.bind, EStateM.bind, callArgument_eq ha, ih hrest]
    rfl

/-- An argument is refused for its shape only, and before anything is added for it. -/
theorem callArgument_error {a : MatrixId} {p : Pattern} (hrun : callArgument a p g = .error e h)
    (he : e.IsRefusal) : h = g ∧ ∃ q, g.pattern? a = some q ∧ q.shape ≠ p.shape ∧
      e = .shape (.callShape p.shape q.shape) := by
  rcases error_of_bind hrun with hfirst | ⟨q, k, hfirst, hrest⟩
  · exact absurd he (unrefused_patternOf a e h hfirst)
  · obtain ⟨rfl, hq⟩ := eq_of_patternOf hfirst
    by_cases hshape : q.shape = p.shape
    · rw [if_neg (not_not.mpr hshape)] at hrest
      refine absurd he (unrefused_project (fun r hr => ?_) e h hrest)
      obtain rfl := Option.some.inj (hq.symm.trans hr)
      exact hshape
    · rw [if_pos hshape] at hrest
      cases hrest
      exact ⟨rfl, q, hq, hshape, rfl⟩

/-- **Calls.** A wrong number of arguments is refused before anything is added, and a wrong shape when
the argument is treated. -/
theorem callRoutine_error {r : Routine} {arguments : List MatrixId}
    (hrun : callRoutine r arguments g = .error e h) (he : e.IsRefusal) :
    h = g ∨ Misfit r arguments g e h := by
  rw [callRoutine] at hrun
  split at hrun
  · exact .inl ((reads_throw _).traceless e h hrun he)
  · rcases error_of_bind hrun with hrun | ⟨placed, k, -, hrun⟩
    · obtain ⟨before, ⟨a, p⟩, after, placed, k, hsplit, hbefore, herror⟩ := error_of_mapM hrun
      obtain ⟨rfl, q, hq, hshape, rfl⟩ := callArgument_error herror he
      refine .inr (.intro hsplit hbefore hq hshape fun hplaced => ?_)
      exact (EStateM.Result.ok.inj (hbefore.symm.trans (placeArguments_eq hplaced))).2
    · exact absurd he (Unrefused.mapM (fun o k => unrefused_intern _ _) _ e h hrun)

theorem call_error {o : FunctionObject} {arguments : List MatrixId}
    (hrun : call o arguments g = .error e h) (he : e.IsRefusal) :
    h = g ∨ ∃ r, o.routine = .ok r ∧ Misfit r arguments g e h := by
  rcases error_of_bind hrun with hrun | ⟨r, k, hr, hrun⟩
  · exact .inl ((reads_ofExcept _).traceless e h hrun he)
  · cases hroutine : o.routine with
    | error d =>
      rw [hroutine] at hr
      contradiction
    | ok r' =>
      rw [hroutine] at hr
      cases hr
      exact (callRoutine_error hrun he).imp id fun hmisfit => ⟨r, rfl, hmisfit⟩

end MatrixBuilder

/-! ### All builders -/

namespace MatrixRequest

open MatrixBuilder

variable {g : MatrixGraph}

theorem traceless_nothing {α : Type} {x : MatrixBuilder α} (hx : Traceless x g) :
    Traceless (do let _ ← x; return [] : MatrixBuilder (List MatrixFunction)) g :=
  hx.bind fun _ _ _ => unrefused_pure []

/-- **Requests for expressions that are no calls** leave no trace where they are refused. -/
theorem traceless_run (hg : g.WellTyped) {r : MatrixRequest} (hr : r.function? = none)
    (hcall : ∀ o arguments, r ≠ .call o arguments) : Traceless r.run g := by
  cases r with
  | symbol name p =>
    refine traceless_nothing (Unrefused.traceless (unrefused_get_bind ?_))
    exact Unrefused.bind (fun _ _ hrun => by contradiction) fun _ _ _ => unrefused_intern _ _
  | constant m => exact traceless_nothing (unrefused_intern _ _).traceless
  | fill p v => exact traceless_nothing (unrefused_fill p v).traceless
  | project a p => exact traceless_nothing (traceless_project a p)
  | densify a => exact traceless_nothing (unrefused_densify a).traceless
  | unary op a => exact traceless_nothing (unrefused_unary op a).traceless
  | binary op a b => exact traceless_nothing (traceless_binary hg op a b)
  | product a b => exact traceless_nothing (traceless_product a b)
  | transpose a => exact traceless_nothing (unrefused_transpose a).traceless
  | vertcat parts => exact traceless_nothing (traceless_vertcat parts)
  | horzcat parts => exact traceless_nothing (traceless_horzcat parts)
  | element a r c => exact traceless_nothing (traceless_element a r c)
  | nonzeros a numbers => exact traceless_nothing (traceless_nonzeros a numbers)
  | sum a =>
    refine traceless_nothing (Unrefused.traceless ?_)
    exact (unrefused_patternOf a).bind fun p h _ => unrefused_scatter _ _ _
  | lift value guess => exact traceless_nothing (traceless_lift value guess)
  | call o arguments => exact absurd rfl (hcall o arguments)
  | jac | grad | tang | hess | jacobian | liftingFunctions => contradiction

end MatrixRequest

namespace MatrixHistory

variable {gs : GraphId → Option MatrixGraph} {fs : List MatrixFunction} {i : GraphId}
  {g h : MatrixGraph} {e : Error}

/-- **Builders that are refused leave the graph as it was.** The exception are calls that are refused
for the shape of an argument: these leave the graph that has the arguments before it on the patterns of
their inputs, which is the graph as it was if they are on these patterns already. -/
theorem eq_of_refused (hist : MatrixHistory gs fs) (hg : gs i = some g) {r : MatrixRequest}
    (hr : r.function? = none) (hrun : r.run g = .error e h) (he : e.IsRefusal) :
    h = g ∨ ∃ o arguments routine, r = .call o arguments ∧ o.routine = .ok routine ∧
      MatrixBuilder.Misfit routine arguments g e h := by
  by_cases hcall : ∀ o arguments, r ≠ .call o arguments
  · exact .inl (MatrixRequest.traceless_run (hist.invariant.2.1 _ _ hg) hr hcall e h hrun he)
  · obtain ⟨o, arguments, rfl⟩ : ∃ o arguments, r = .call o arguments := by simpa using hcall
    rcases MatrixBuilder.error_of_bind hrun with hrun | ⟨_, _, _, hrun⟩
    · refine (MatrixBuilder.call_error hrun he).imp id ?_
      rintro ⟨routine, hroutine, hmisfit⟩
      exact ⟨o, arguments, routine, rfl, hroutine, hmisfit⟩
    · contradiction

end MatrixHistory

/-! ### A call on two columns -/

namespace EmbeddedPair

/-- Two columns of two symbols and the product of the first symbol of one and the second of the
other. -/
def scalars : ScalarGraph :=
  (ScalarBuilder.binary .mul ⟨3⟩ ⟨6⟩).after
    (["u_0", "u_1", "v_0", "v_1"].foldl (fun g name => (g.symbol name).2) (.new (.numbered 0)))

def tape : ScalarTape where
  instrs := [.input 0 0 0, .input 1 1 1, .binary .mul 0 1 1, .output 0 0 1]
  freeSymbols := []
  freeNames := []
  workSize := 2

/-- The product as a function of the columns. -/
def function : ScalarFunction where
  options := {}
  owner := ⟨.numbered 0, 7⟩
  inPatterns := [.denseColumn 2, .denseColumn 2]
  outPatterns := [.scalar]
  stage := .initialized ⟨[.column [⟨3⟩, ⟨4⟩], .column [⟨5⟩, ⟨6⟩]], [.scalar ⟨7⟩], none⟩ tape

def object : FunctionObject := .new (.numbered 0) function

/-- The pattern of a column of two with its first element only. -/
def halfColumn : Pattern := ⟨2, [[0]], by decide⟩

/-- A column of two without its second element, and a column of three. -/
def requests : List MatrixRequest := [.symbol "x" halfColumn, .symbol "y" (.denseColumn 3)]

def graph : MatrixGraph := requests.foldl (fun g r => r.after g) (.new (.numbered 0))

/-- The graph with the first column on the dense pattern. -/
def graphAfter : MatrixGraph := (MatrixRequest.project ⟨0⟩ (.denseColumn 2)).after graph

theorem history : MatrixHistory (Function.update (fun _ => none) (.numbered 0) (some graph)) [] :=
  @MatrixHistory.afterAll _ _ _ _ requests (by decide) (.new (.numbered 0) .start rfl)

/-- The sum of the columns is refused without a trace, and the call at its second argument. -/
theorem eq_or_misfit : (∀ e h, (MatrixRequest.binary .add ⟨0⟩ ⟨1⟩).run graph = .error e h →
      e.IsRefusal → h = graph) ∧
    ∃ routine, object.routine = .ok routine ∧ MatrixBuilder.Misfit routine [⟨0⟩, ⟨1⟩] graph
      (.shape (.callShape (2, 1) (3, 1))) graphAfter := by
  constructor
  · intro e h hrun he
    rcases history.eq_of_refused (i := .numbered 0) (Function.update_self ..)
      (r := .binary .add ⟨0⟩ ⟨1⟩) rfl hrun he with heq | ⟨_, _, _, hr, _⟩
    · exact heq
    · contradiction
  · have hrun : (MatrixRequest.call object [⟨0⟩, ⟨1⟩]).run graph
        = .error (.shape (.callShape (2, 1) (3, 1))) graphAfter := rfl
    rcases history.eq_of_refused (i := .numbered 0) (Function.update_self ..) rfl hrun trivial with
      heq | ⟨_, _, routine, hr, hroutine, h⟩
    · exact absurd (congrArg MatrixGraph.size heq) (by decide)
    · obtain ⟨rfl, rfl⟩ := MatrixRequest.call.inj hr
      exact ⟨routine, hroutine, h⟩

/-- The first argument of the call is on another pattern than the first input, and the second one has
another shape than the second input. The call is refused, and leaves what it added for the first
argument. -/
theorem call_leaves_argument :
    ScalarFunction.make scalars [.column [⟨3⟩, ⟨4⟩], .column [⟨5⟩, ⟨6⟩]] [.scalar ⟨7⟩] {} = .ok function ∧
      MatrixBuilder.call object [⟨0⟩, ⟨1⟩] graph
        = .error (.shape (.callShape (2, 1) (3, 1))) graphAfter ∧
      graph.size = 2 ∧ graphAfter.size = 3 :=
  ⟨rfl, rfl, rfl, rfl⟩

end EmbeddedPair

end Fluxion
