import Fluxion.Proofs.Refusals.Builders
import Fluxion.Proofs.Room.Requests

/-!
# Derivatives and lifting that are refused

A request for a derivative is refused for the number of an input or an output, for the graph, for a
shape, or because the function has no tape. If all that is in order, nothing that the request adds is
refused, in graphs with room or without. So it leaves no trace where it is refused if it looks at all
of this first.

Jacobians and liftings do. Gradients, tangents and Hessians ask for the tape only where it is run, and
by then the seed is in the graph.

## Main definitions

* `MatrixRequest.seed?` — the pattern of the ones that a request starts with
* `MatrixFunction.SeedOnly` — a function without a tape has been refused after its seed was added

## Main results

* `MatrixFunction.traceless_jac`, `MatrixFunction.traceless_jacobian`,
  `MatrixFunction.traceless_liftingFunctions` — requests that leave no trace
* `MatrixFunction.grad_error`, `MatrixFunction.tang_error`, `MatrixFunction.hess_error` — requests
  that may leave their seed
* `MatrixHistory.eq_or_seedOnly` — **requests that are refused leave the graph as it was**, or with
  the seed
* `LiftedSine.grad_leaves_seed` — what a gradient leaves that is refused
-/

namespace Fluxion

open MatrixBuilder

namespace MatrixFunction

variable {f : MatrixFunction} {g h : MatrixGraph} {tape : MatrixTape} {i o : Nat} {e : Error}

/-! ### What comes first -/

/-- All that a request for a derivative is refused for is in order, apart from shapes. -/
structure InOrder (f : MatrixFunction) (g : MatrixGraph) (i o : Nat) : Prop where
  input : i < f.inCount
  output : o < f.outCount
  graph : f.livesIn g = true
  tape : ∃ tape, f.tape? = some tape

theorem tape_eq_error (htape : f.tape? = none) : f.tape = .error (.notInitialized f.name) := by
  rw [tape, htape]

/-- The numbers and the graph come first. -/
theorem request_cases {β : Type} (f : MatrixFunction) (g : MatrixGraph) (i o : Nat)
    (x : MatrixBuilder β) :
    (i < f.inCount ∧ o < f.outCount ∧ f.livesIn g = true) ∧
        (do .ofExcept (f.request (← get) i o); x : MatrixBuilder β) g = x g ∨
      ∃ d, (do .ofExcept (f.request (← get) i o); x : MatrixBuilder β) g = .error d g := by
  change _ ∧ ((.ofExcept (f.request g i o) : MatrixBuilder Unit) >>= fun _ => x) g = _ ∨
    ∃ d, ((.ofExcept (f.request g i o) : MatrixBuilder Unit) >>= fun _ => x) g = _
  cases hrequest : f.request g i o with
  | error d => exact .inr ⟨d, rfl⟩
  | ok u => exact .inl ⟨request_eq_ok hrequest, rfl⟩

/-! ### Jacobians -/

/-- A function without a tape has no dependency pattern, which is looked at before anything is
added. -/
theorem inOrder_or_jac_eq (f : MatrixFunction) (g : MatrixGraph) (i o : Nat)
    (compact symmetric : Bool) :
    f.InOrder g i o ∨ ∃ d, f.jac i o compact symmetric g = .error d g := by
  rw [jac]
  rcases request_cases f g i o _ with ⟨⟨hi, ho, hlives⟩, hrest⟩ | herror
  · cases htape : f.tape? with
    | some tape => exact .inl ⟨hi, ho, hlives, tape, htape⟩
    | none =>
      have hpattern : f.dependencyPattern i o = .error (.notInitialized f.name) := by
        rw [dependencyPattern, checkInput, if_pos hi, checkOutput, if_pos ho, tape_eq_error htape]
        rfl
      rw [hrest, hpattern]
      exact .inr ⟨_, rfl⟩
  · exact .inr herror

/-- **Jacobians** that are refused leave no trace. -/
theorem traceless_jac (hready : f.livesIn g = true → f.Ready g) (hg : g.WellTyped) (i o : Nat)
    (compact symmetric : Bool) : Traceless (f.jac i o compact symmetric) g := by
  intro e h hrun he
  rcases inOrder_or_jac_eq f g i o compact symmetric with ⟨hi, ho, hlives, tape, htape⟩ | ⟨d, hd⟩
  · have hgranted : Granted False _ g _ := granted_jac (hready hlives) htape hlives False.elim hi ho
      compact symmetric
    rw [hgranted.eq_tooLarge hg hrun] at he
    exact he.elim
  · rw [hd] at hrun
    cases hrun
    rfl

/-- **Jacobian functions.** If there is a Jacobian, a function can be made of it. -/
theorem traceless_jacobian (hready : f.livesIn g = true → f.Ready g) (hg : g.WellTyped) (i o : Nat)
    (compact symmetric : Bool) : Traceless (f.jacobian i o compact symmetric) g := by
  intro e h hrun he
  rcases error_of_bind hrun with hjac | ⟨d, k, hjac, -⟩
  · exact traceless_jac hready hg i o compact symmetric e h hjac he
  · rcases inOrder_or_jac_eq f g i o compact symmetric with ⟨hi, ho, hlives, tape, htape⟩ | ⟨d, hd⟩
    · have hgranted : Granted False _ g _ := granted_jacobian (hready hlives) htape hlives False.elim hi
        ho compact symmetric
      rw [hgranted.eq_tooLarge hg hrun] at he
      exact he.elim
    · rw [hd] at hjac
      contradiction

/-! ### Gradients, tangents and Hessians -/

/-- The request has been refused because the function has no tape, after a seed on the pattern was
added. -/
def SeedOnly (f : MatrixFunction) (p : Pattern) (g : MatrixGraph) (e : Error) (h : MatrixGraph) : Prop :=
  f.tape? = none ∧ e = .notInitialized f.name ∧ ∃ s, fill p 1.0 g = .ok s h

/-- What a request does for a function without a tape. -/
def seedAndFail (f : MatrixFunction) (p : Pattern) : MatrixBuilder MatrixId := do
  let _ ← fill p 1.0
  throw (.notInitialized f.name)

theorem seedOnly_of_seedAndFail (htape : f.tape? = none) {p : Pattern}
    (hrun : f.seedAndFail p g = .error e h) (he : e.IsRefusal) : f.SeedOnly p g e h := by
  rcases error_of_bind hrun with hfill | ⟨s, k, hfill, hthrow⟩
  · exact absurd he (unrefused_fill p 1.0 e h hfill)
  · cases hthrow
    exact ⟨htape, rfl, s, hfill⟩

theorem seedAndFail_ne_ok {p : Pattern} {d : MatrixId} : f.seedAndFail p g ≠ .ok d h := by
  intro hrun
  simp only [seedAndFail, Bind.bind, EStateM.bind] at hrun
  split at hrun <;> contradiction

theorem reverseRows_eq_throw (htape : f.tape? = none) (seeds : List MatrixId) :
    f.reverseRows i o seeds = throw (.notInitialized f.name) := by
  rw [reverseRows, tape_eq_error htape]
  rfl

theorem forwardColumns_eq_throw (htape : f.tape? = none) (seeds : List MatrixId) :
    f.forwardColumns i o seeds = throw (.notInitialized f.name) := by
  rw [forwardColumns, tape_eq_error htape]
  rfl

/-- The seed of a gradient is added before the tape is asked for. -/
theorem grad_cases (f : MatrixFunction) (g : MatrixGraph) (i o : Nat) :
    f.InOrder g i o ∧ (f.outPattern o).shape = (1, 1) ∨ (∃ d, f.grad i o g = .error d g) ∨
      f.tape? = none ∧ f.grad i o g = f.seedAndFail (f.outPattern o) g := by
  rw [grad]
  rcases request_cases f g i o _ with ⟨⟨hi, ho, hlives⟩, hrest⟩ | herror
  · rw [hrest]
    by_cases hshape : (f.outPattern o).shape = (1, 1)
    · cases htape : f.tape? with
      | some tape => exact .inl ⟨⟨hi, ho, hlives, tape, htape⟩, hshape⟩
      | none =>
        refine .inr (.inr ⟨rfl, ?_⟩)
        dsimp only
        rw [if_neg (not_not.mpr hshape)]
        simp only [reverseRows_eq_throw htape]
        rfl
    · dsimp only
      rw [if_pos hshape]
      exact .inr (.inl ⟨_, rfl⟩)
  · exact .inr (.inl herror)

/-- So is the seed of a tangent. -/
theorem tang_cases (f : MatrixFunction) (g : MatrixGraph) (i o : Nat) :
    f.InOrder g i o ∧ (f.inPattern i).shape = (1, 1) ∨ (∃ d, f.tang i o g = .error d g) ∨
      f.tape? = none ∧ f.tang i o g = f.seedAndFail (f.inPattern i) g := by
  rw [tang]
  rcases request_cases f g i o _ with ⟨⟨hi, ho, hlives⟩, hrest⟩ | herror
  · rw [hrest]
    by_cases hshape : (f.inPattern i).shape = (1, 1)
    · cases htape : f.tape? with
      | some tape => exact .inl ⟨⟨hi, ho, hlives, tape, htape⟩, hshape⟩
      | none =>
        refine .inr (.inr ⟨rfl, ?_⟩)
        dsimp only
        rw [if_neg (not_not.mpr hshape)]
        simp only [forwardColumns_eq_throw htape]
        rfl
    · dsimp only
      rw [if_pos hshape]
      exact .inr (.inl ⟨_, rfl⟩)
  · exact .inr (.inl herror)

/-- **Gradients** that are refused leave no trace, or their seed. -/
theorem grad_error (hready : f.livesIn g = true → f.Ready g) (hg : g.WellTyped)
    (hrun : f.grad i o g = .error e h) (he : e.IsRefusal) :
    h = g ∨ f.SeedOnly (f.outPattern o) g e h := by
  rcases grad_cases f g i o with ⟨⟨hi, ho, hlives, tape, htape⟩, hshape⟩ | ⟨d, hd⟩ | ⟨htape, hseed⟩
  · have hfulfills : Fulfills False _ g _ := fulfills_grad (hready hlives) htape hlives hi ho hshape
    exact absurd he (hfulfills.unrefused hg e h hrun)
  · rw [hd] at hrun
    cases hrun
    exact .inl rfl
  · exact .inr (seedOnly_of_seedAndFail htape (hseed ▸ hrun) he)

/-- **Tangents.** -/
theorem tang_error (hready : f.livesIn g = true → f.Ready g) (hg : g.WellTyped)
    (hrun : f.tang i o g = .error e h) (he : e.IsRefusal) :
    h = g ∨ f.SeedOnly (f.inPattern i) g e h := by
  rcases tang_cases f g i o with ⟨⟨hi, ho, hlives, tape, htape⟩, hshape⟩ | ⟨d, hd⟩ | ⟨htape, hseed⟩
  · have hfulfills : Fulfills False _ g _ := fulfills_tang (hready hlives) htape hlives hi ho hshape
    exact absurd he (hfulfills.unrefused hg e h hrun)
  · rw [hd] at hrun
    cases hrun
    exact .inl rfl
  · exact .inr (seedOnly_of_seedAndFail htape (hseed ▸ hrun) he)

/-- **Hessians.** If there is a gradient, the function has a tape, and its gradient has a Jacobian. -/
theorem hess_error (hready : f.livesIn g = true → f.Ready g) (hg : g.WellTyped)
    (hrun : f.hess i o g = .error e h) (he : e.IsRefusal) :
    h = g ∨ f.SeedOnly (f.outPattern o) g e h := by
  rcases error_of_bind hrun with hgrad | ⟨d, k, hgrad, -⟩
  · exact grad_error hready hg hgrad he
  · rcases grad_cases f g i o with ⟨⟨hi, ho, hlives, tape, htape⟩, hshape⟩ | ⟨d, hd⟩ | ⟨-, hseed⟩
    · have hgranted : Granted False _ g _ := granted_hess (hready hlives) htape hlives False.elim hi ho
        hshape
      rw [hgranted.eq_tooLarge hg hrun] at he
      exact he.elim
    · rw [hd] at hgrad
      contradiction
    · exact absurd (hseed.symm.trans hgrad) seedAndFail_ne_ok

/-! ### Liftings -/

/-- **Liftings** are refused for the graph and the tape only. -/
theorem traceless_liftingFunctions (hready : f.livesIn g = true → f.Ready g) (hg : g.WellTyped) :
    Traceless f.liftingFunctions g := by
  intro e h hrun he
  by_cases hlives : f.livesIn g = true
  · cases htape : f.tape? with
    | some tape =>
      obtain ⟨fs, k, hok⟩ := (hready hlives).exists_liftingFunctions htape hlives hg
      rw [hok] at hrun
      contradiction
    | none =>
      have herror : f.liftingFunctions g = .error (.notInitialized f.name) g := by
        rw [liftingFunctions, tape_eq_error htape]
        change ((.ofExcept (f.checkGraph g) : MatrixBuilder Unit) >>= fun _ => _) g = _
        rw [checkGraph, if_pos hlives]
        rfl
      rw [herror] at hrun
      cases hrun
      rfl
  · have herror : f.liftingFunctions g = .error .foreignGraph g := by
      change ((.ofExcept (f.checkGraph g) : MatrixBuilder Unit) >>= fun _ => _) g = _
      rw [checkGraph, if_neg hlives]
      rfl
    rw [herror] at hrun
    cases hrun
    rfl

end MatrixFunction

/-! ### All requests -/

/-- The pattern of the ones that a request starts with: the output of a gradient or a Hessian, and the
input of a tangent. -/
def MatrixRequest.seed? : MatrixRequest → Option Pattern
  | .grad f _ o | .hess f _ o => some (f.outPattern o)
  | .tang f i _ => some (f.inPattern i)
  | _ => none

namespace MatrixHistory

variable {gs : GraphId → Option MatrixGraph} {fs : List MatrixFunction} {i : GraphId}
  {g h : MatrixGraph} {e : Error}

/-- **Requests that are refused leave the graph as it was**, whether the function has a tape or not and
whether the graph is its own or another one. The exception are gradients, tangents and Hessians of a
function without a tape, which leave their seed. -/
theorem eq_or_seedOnly (hist : MatrixHistory gs fs) {f : MatrixFunction} (hf : f ∈ fs)
    (hg : gs i = some g) {r : MatrixRequest} (hr : r.function? = some f)
    (hrun : r.run g = .error e h) (he : e.IsRefusal) :
    h = g ∨ ∃ p, r.seed? = some p ∧ f.SeedOnly p g e h := by
  have hready : f.livesIn g = true → f.Ready g := fun hlives => hist.ready hf hg hlives
  have htyped : g.WellTyped := hist.invariant.2.1 _ _ hg
  cases r with
  | jac f' i o compact symmetric =>
    obtain rfl := Option.some.inj hr
    have hx := MatrixFunction.traceless_jac hready htyped i o compact symmetric
    exact .inl (MatrixRequest.traceless_nothing hx e h hrun he)
  | jacobian f' i o compact symmetric =>
    obtain rfl := Option.some.inj hr
    have hx := MatrixFunction.traceless_jacobian hready htyped i o compact symmetric
    exact .inl (hx.bind (fun _ _ _ => MatrixBuilder.unrefused_pure _) e h hrun he)
  | liftingFunctions f' =>
    obtain rfl := Option.some.inj hr
    have hx := MatrixFunction.traceless_liftingFunctions hready htyped
    exact .inl (hx.bind (fun _ _ _ => MatrixBuilder.unrefused_pure _) e h hrun he)
  | grad f' i o =>
    obtain rfl := Option.some.inj hr
    obtain hgrad | ⟨_, _, _, _⟩ := MatrixBuilder.error_of_bind hrun
    · exact (MatrixFunction.grad_error hready htyped hgrad he).imp id fun hseed => ⟨_, rfl, hseed⟩
    · contradiction
  | tang f' i o =>
    obtain rfl := Option.some.inj hr
    obtain htang | ⟨_, _, _, _⟩ := MatrixBuilder.error_of_bind hrun
    · exact (MatrixFunction.tang_error hready htyped htang he).imp id fun hseed => ⟨_, rfl, hseed⟩
    · contradiction
  | hess f' i o =>
    obtain rfl := Option.some.inj hr
    obtain hhess | ⟨_, _, _, _⟩ := MatrixBuilder.error_of_bind hrun
    · exact (MatrixFunction.hess_error hready htyped hhess he).imp id fun hseed => ⟨_, rfl, hseed⟩
    · contradiction
  | _ => contradiction

end MatrixHistory

/-! ### The lifted sine without a tape -/

namespace LiftedSine

/-- The graph with the seed of a gradient. -/
def seeded : MatrixGraph := (MatrixRequest.fill .scalar 1.0).after graph

/-- Without a tape, a Jacobian is refused without a trace, and a gradient leaves its seed. -/
theorem eq_or_seedOnly_square :
    (∀ e h, (MatrixRequest.jac (functionWith none) 0 0 false false).run graph = .error e h →
      e.IsRefusal → h = graph) ∧
    (MatrixRequest.grad (functionWith none) 0 0).run graph = .error (.notInitialized "unnamed") seeded ∧
      (functionWith none).SeedOnly .scalar graph (.notInitialized "unnamed") seeded := by
  have hmem : functionWith none ∈ [functionWith (some tape), functionWith none] := by simp
  constructor
  · intro e h hrun he
    rcases history.eq_or_seedOnly hmem (i := .numbered 0) (Function.update_self ..) rfl hrun he with
      heq | ⟨_, hp, _⟩
    · exact heq
    · contradiction
  · have hrun : (MatrixRequest.grad (functionWith none) 0 0).run graph
        = .error (.notInitialized "unnamed") seeded := rfl
    refine ⟨hrun, ?_⟩
    rcases history.eq_or_seedOnly hmem (i := .numbered 0) (Function.update_self ..) rfl hrun trivial with
      heq | ⟨_, hp, hseed⟩
    · exact absurd (congrArg MatrixGraph.size heq) (by decide)
    · obtain rfl := Option.some.inj hp
      exact hseed

/-- The gradient is refused because there is no tape. By then the graph has one expression more. -/
theorem grad_leaves_seed :
    functionWith none ∈ [functionWith (some tape), functionWith none] ∧
      (functionWith none).livesIn graph = true ∧
      (functionWith none).grad 0 0 graph = .error (.notInitialized "unnamed") seeded ∧
      graph.size = 4 ∧ seeded.size = 5 :=
  ⟨by simp, rfl, rfl, rfl, rfl⟩

end LiftedSine

end Fluxion
