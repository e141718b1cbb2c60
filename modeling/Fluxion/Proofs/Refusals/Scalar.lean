import Fluxion.Proofs.History.Calls
import Fluxion.Proofs.History.Gradients
import Fluxion.Proofs.Scalar.Contents

/-!
# Requests to scalar functions that are refused

A request for a derivative of a scalar function looks at the numbers of input and output, at the graph,
at the expressions and at the tape, in this order, and a gradient or a tangent looks at a shape before
it looks at the tape. Nothing is added to the graph before all of this has been looked at. After it
nothing is refused any more: the tape was compiled from expressions that the graph has, and what is
made of a Jacobian or a gradient is a function of the same symbols.

One thing is not looked at. The starts of the columns of a Jacobian are in a table, one for each
element of the input, so an input may have too many elements for a Jacobian that is not compact, and
for a Hessian. Such a request fails after the sweeps, and not for a reason of its own.

A call looks at the tape, the arguments, their handles and the free symbols, and then replays.

Nothing else can go wrong: all that a tape and a plan look up is there.

## Main definitions

* `ScalarBuilder.RefusedFor` — for which reasons a request is refused, and where it has no room
* `ScalarFunction.DerivativeFault`, `ScalarFunction.CallFault` — the reasons
* `ScalarFunction.Refuses` — what each request is refused for

## Main results

* `ScalarHistory.refuses` — **requests are refused for these reasons and no others**, and leave the
  graph as it was
* `SparseColumn.jac_tooLarge` — a Jacobian without room
-/

namespace Fluxion

/-- A request is refused if there is a reason, for one that there is, and then it leaves the graph as it
was. If there is none it succeeds, unless what it makes has no room. -/
def ScalarBuilder.RefusedFor {α : Type} (x : ScalarBuilder α) (g : ScalarGraph)
    (fault : Error → Prop) (room : Prop) : Prop :=
  match x g with
  | .ok _ h => (∀ d, ¬ fault d) ∧ room ∧ g.Grows h
  | .error d h => fault d ∧ h = g ∨ (∀ d, ¬ fault d) ∧ ¬ room ∧ d = .tooLarge

namespace ScalarBuilder

variable {α β : Type} {x : ScalarBuilder α} {g h : ScalarGraph} {fault : Error → Prop} {room : Prop}
  {d : Error}

theorem refusedFor_of_error (hrun : x g = .error d g) (hd : fault d) : x.RefusedFor g fault room := by
  rw [RefusedFor, hrun]
  exact .inl ⟨hd, rfl⟩

theorem refusedFor_of_ok {a : α} (hrun : x g = .ok a h) (hgrow : g.Grows h)
    (hnone : ∀ d, ¬ fault d) (hroom : room) : x.RefusedFor g fault room := by
  rw [RefusedFor, hrun]
  exact ⟨hnone, hroom, hgrow⟩

theorem refusedFor_of_tooLarge (hrun : x g = .error .tooLarge h) (hnone : ∀ d, ¬ fault d)
    (hroom : ¬ room) : x.RefusedFor g fault room := by
  rw [RefusedFor, hrun]
  exact .inr ⟨hnone, hroom, rfl⟩

theorem bind_of_error {f : α → ScalarBuilder β} (hrun : x g = .error d h) :
    (x >>= f) g = .error d h := by
  simp only [Bind.bind, EStateM.bind, hrun]

end ScalarBuilder

namespace ScalarFunction

open ScalarBuilder

variable {f : ScalarFunction} {g h : ScalarGraph} {e : Expressions} {tape : ScalarTape} {i o : Nat}

/-! ### Reasons -/

/-- Why a derivative of output `o` in input `i` cannot be had in a graph. -/
inductive DerivativeFault (f : ScalarFunction) (g : ScalarGraph) (i o : Nat) : Error → Prop
  | input (h : f.inCount ≤ i) : DerivativeFault f g i o (.inputIndex i f.inCount)
  | output (h : f.outCount ≤ o) : DerivativeFault f g i o (.outputIndex o f.outCount)
  | graph (h : f.livesIn g = false) : DerivativeFault f g i o .foreignGraph
  | cleared (h : f.hasExpressions = false) : DerivativeFault f g i o (.symbolsCleared f.name)
  | declared (h : f.isInitialized = false) : DerivativeFault f g i o (.notInitialized f.name)

/-- Why a derivative cannot be had for which a pattern has to be 1x1: a reason that all derivatives
have, or the shape. -/
def ShapedFault (f : ScalarFunction) (g : ScalarGraph) (i o : Nat) (shape : Shape)
    (mismatch : ShapeMismatch) (d : Error) : Prop :=
  f.DerivativeFault g i o d ∨
    i < f.inCount ∧ o < f.outCount ∧ shape ≠ (1, 1) ∧ d = .shape mismatch

/-- Why a gradient or a Hessian of output `o` in input `i` cannot be had. -/
def GradientFault (f : ScalarFunction) (g : ScalarGraph) (i o : Nat) : Error → Prop :=
  f.ShapedFault g i o (f.outPattern o).shape (.gradient (f.outPattern o).shape)

/-- Why a tangent of output `o` along input `i` cannot be had. -/
def TangentFault (f : ScalarFunction) (g : ScalarGraph) (i o : Nat) : Error → Prop :=
  f.ShapedFault g i o (f.inPattern i).shape (.tangent (f.inPattern i).shape)

/-- Why a function cannot be called with arguments in a graph. -/
inductive CallFault (f : ScalarFunction) (g : ScalarGraph)
    (arguments : List (SparseMatrix ScalarId)) : Error → Prop
  | declared (h : f.isInitialized = false) : CallFault f g arguments (.notInitialized f.name)
  | count (h : arguments.length ≠ f.inCount) :
    CallFault f g arguments (.shape (.argumentCount f.inCount arguments.length))
  | shape {k : Nat} {p : Pattern} {m : SparseMatrix ScalarId} (hp : f.inPatterns[k]? = some p)
    (hm : arguments[k]? = some m) (h : m.shape ≠ p.shape) :
    CallFault f g arguments (.shape (.argumentShape k p.shape m.shape))
  | unknown {e : ScalarId} (he : e ∈ handlesOf arguments) (h : ¬ g.Has e) :
    CallFault f g arguments (.unknownExpression e.index)
  | free {tape : ScalarTape} (htape : f.stage.tape? = some tape) (hfree : tape.freeSymbols ≠ [])
    (h : f.livesIn g = false) : CallFault f g arguments (.freeSymbols tape.freeNames)

/-- There is room for a Jacobian: its rows can be counted, and its starts fit into a table. -/
def HasRoom (f : ScalarFunction) (i o : Nat) (compact : Bool) : Prop :=
  compact = true ∨ (f.outPattern o).numel < countLimit ∧ (f.inPattern i).numel + 1 < tableLimit

/-- What each request to a function is refused for in a graph. -/
structure Refuses (f : ScalarFunction) (g : ScalarGraph) : Prop where
  jac : ∀ i o compact symmetric, (f.jac i o compact symmetric).RefusedFor g
    (f.DerivativeFault g i o) (f.HasRoom i o compact)
  jacobian : ∀ i o compact symmetric, (f.jacobian i o compact symmetric).RefusedFor g
    (f.DerivativeFault g i o) (f.HasRoom i o compact)
  grad : ∀ i o, (f.grad i o).RefusedFor g (f.GradientFault g i o) True
  tang : ∀ i o, (f.tang i o).RefusedFor g (f.TangentFault g i o) True
  hess : ∀ i o, (f.hess i o).RefusedFor g (f.GradientFault g i o)
    ((f.inPattern i).numel + 1 < tableLimit)
  call : ∀ arguments, (f.call arguments).RefusedFor g (f.CallFault g arguments) True
  /-- All slots and places that sweeps and replays use are there. -/
  inRange : ∀ tape, f.stage.tape? = some tape → tape.InRange f.inSizes f.outSizes
  /-- All entries of a Jacobian are looked up in sweeps that are there. -/
  found : ∀ p symmetric, ∀ place ∈ (JacobianPlan.make p f.options symmetric).lookup,
    place.1 < (JacobianPlan.make p f.options symmetric).sweeps.length ∧
      place.2 < (JacobianPlan.make p f.options symmetric).components p

/-! ### What comes first -/

/-- Numbers, graph and expressions are looked at first. -/
theorem request_cases (f : ScalarFunction) (g : ScalarGraph) (i o : Nat) :
    (∃ d, f.request g i o = .error d ∧ f.DerivativeFault g i o d) ∨
      ∃ e, f.request g i o = .ok e ∧ i < f.inCount ∧ o < f.outCount ∧ f.livesIn g = true ∧
        f.stage.expressions? = some e := by
  rw [request, checkInput, checkOutput, checkGraph, expressions]
  rcases Nat.lt_or_ge i f.inCount with hi | hi
  · rw [if_pos hi]
    rcases Nat.lt_or_ge o f.outCount with ho | ho
    · rw [if_pos ho]
      cases hlives : f.livesIn g with
      | false => exact .inl ⟨_, rfl, .graph hlives⟩
      | true =>
        cases he : f.stage.expressions? with
        | none => exact .inl ⟨_, rfl, .cleared (by rw [hasExpressions, he]; rfl)⟩
        | some e => exact .inr ⟨e, rfl, hi, ho, rfl, rfl⟩
    · rw [if_neg (Nat.not_lt.mpr ho)]
      exact .inl ⟨_, rfl, .output ho⟩
  · rw [if_neg (Nat.not_lt.mpr hi)]
    exact .inl ⟨_, rfl, .input hi⟩

section

variable {α : Type} {k : Expressions → ScalarBuilder α}

theorem run_of_request_error {d : Error} (hd : f.request g i o = .error d) :
    (do k (← .ofExcept (f.request (← get) i o)) : ScalarBuilder α) g = .error d g := by
  change (ScalarBuilder.ofExcept (f.request g i o) >>= k) g = _
  rw [hd]
  rfl

theorem run_of_request_ok (he : f.request g i o = .ok e) :
    (do k (← .ofExcept (f.request (← get) i o)) : ScalarBuilder α) g = k e g := by
  change (ScalarBuilder.ofExcept (f.request g i o) >>= k) g = _
  rw [he]
  rfl

end

/-- A function that is ready gives no reason to refuse a derivative. -/
theorem Ready.not_derivativeFault (hr : f.Ready g e tape) (hi : i < f.inCount) (ho : o < f.outCount)
    (d : Error) : ¬ f.DerivativeFault g i o d := by
  have hlives := hr.lives
  rintro (hle | hle | hforeign | hcleared | hdeclared)
  · omega
  · omega
  · rw [hforeign] at hlives
    contradiction
  · rw [hasExpressions, hr.stage] at hcleared
    contradiction
  · rw [isInitialized, hr.stage] at hdeclared
    contradiction

/-! ### Derivatives -/

/-- The sweeps of a Jacobian are carried out before it turns out that there is no room for it. -/
theorem Ready.jac_withoutRoom (hr : f.Ready g e tape) (hg : g.Founded) (hi : i < f.inCount)
    (ho : o < f.outCount) {compact : Bool} (symmetric : Bool) (hroom : ¬ f.HasRoom i o compact) :
    ∃ h, f.jac i o compact symmetric g = .error .tooLarge h := by
  obtain ⟨p, hp, hrows, hcols, -⟩ := dependencyPattern_eq hr hi ho
  obtain ⟨derivatives, h, hsweeps, -⟩ := yields_sweepsFor Interpretation.trivial 0 hr hrows hcols
    (.make p f.options symmetric) hg
  refine ⟨h, ?_⟩
  have hassembled : p.assembledOf (f.outPattern o) (f.inPattern i) compact = .error .tooLarge :=
    if_neg hroom
  rw [hr.jac_eq hi ho hp, bind_of_ok hsweeps, hassembled]
  rfl

section

variable (hready : ∀ e tape, f.stage = .initialized e tape → f.livesIn g = true → f.Ready g e tape)
  (hg : g.Founded)

include hready

/-- A request for a derivative is refused at once, or later for the tape, or else the function is
ready. -/
theorem derivative_cases (i o : Nat) :
    (∃ d, f.request g i o = .error d ∧ f.DerivativeFault g i o d) ∨
      ∃ e, f.request g i o = .ok e ∧ i < f.inCount ∧ o < f.outCount ∧
        (f.tape = .error (.notInitialized f.name) ∧ f.isInitialized = false ∨
          ∃ tape, f.Ready g e tape) := by
  rcases request_cases f g i o with hrefused | ⟨e, he, hi, ho, hlives, hexpressions⟩
  · exact .inl hrefused
  · refine .inr ⟨e, he, hi, ho, ?_⟩
    cases hstage : f.stage with
    | declared e' =>
      refine .inl ⟨?_, ?_⟩
      · rw [ScalarFunction.tape, hstage]
        rfl
      · rw [isInitialized, hstage]
        rfl
    | initialized e' tape =>
      rw [hstage] at hexpressions
      obtain rfl := Option.some.inj hexpressions
      exact .inr ⟨tape, hready _ tape hstage hlives⟩
    | cleared tape =>
      rw [hstage] at hexpressions
      contradiction

/-- Where there is no reason to refuse a derivative, the function is ready. -/
theorem exists_ready (hnone : ∀ d, ¬ f.DerivativeFault g i o d) :
    ∃ e tape, f.Ready g e tape ∧ i < f.inCount ∧ o < f.outCount := by
  rcases derivative_cases hready i o with ⟨d, -, hd⟩ | ⟨e, -, hi, ho, ⟨-, hd⟩ | ⟨tape, hr⟩⟩
  · exact absurd hd (hnone _)
  · exact absurd (.declared hd) (hnone _)
  · exact ⟨e, tape, hr, hi, ho⟩

/-- A request that looks at a shape before it looks at the tape. -/
theorem refusedFor_shaped {α : Type} {x : ScalarBuilder α}
    {k : Expressions → ScalarTape → ScalarBuilder α} {shape : Shape} {mismatch : ShapeMismatch}
    (hx : x = do
      let e ← .ofExcept (f.request (← get) i o)
      if shape ≠ (1, 1) then throw (.shape mismatch)
      let tape ← .ofExcept f.tape
      k e tape)
    (hok : ∀ e tape, f.Ready g e tape → i < f.inCount → o < f.outCount → shape = (1, 1) →
      ∃ a h, x g = .ok a h ∧ g.Grows h) :
    x.RefusedFor g (f.ShapedFault g i o shape mismatch) True := by
  rcases derivative_cases hready i o with ⟨d, hd, hfault⟩ | ⟨e, he, hi, ho, htape⟩
  · refine refusedFor_of_error ?_ (.inl hfault)
    rw [hx]
    exact run_of_request_error hd
  · by_cases hshape : shape = (1, 1)
    · rcases htape with ⟨htape, hdeclared⟩ | ⟨tape, hr⟩
      · refine refusedFor_of_error ?_ (.inl (.declared hdeclared))
        rw [hx]
        refine (run_of_request_ok he).trans ?_
        dsimp only
        rw [if_neg (not_not.mpr hshape), htape]
        rfl
      · obtain ⟨a, h, hrun, hgrow⟩ := hok e tape hr hi ho hshape
        refine refusedFor_of_ok hrun hgrow ?_ trivial
        rintro d (hfault | ⟨-, -, hne, -⟩)
        · exact hr.not_derivativeFault hi ho d hfault
        · exact hne hshape
    · refine refusedFor_of_error ?_ (.inr ⟨hi, ho, hshape, rfl⟩)
      rw [hx]
      refine (run_of_request_ok he).trans ?_
      dsimp only
      rw [if_pos hshape]
      rfl

include hg

theorem refusedFor_jac (i o : Nat) (compact symmetric : Bool) :
    (f.jac i o compact symmetric).RefusedFor g (f.DerivativeFault g i o) (f.HasRoom i o compact) := by
  rcases derivative_cases hready i o with ⟨d, hd, hfault⟩ |
    ⟨e, he, hi, ho, ⟨htape, hdeclared⟩ | ⟨tape, hr⟩⟩
  · refine refusedFor_of_error ?_ hfault
    rw [jac]
    exact run_of_request_error hd
  · refine refusedFor_of_error ?_ (.declared hdeclared)
    rw [jac, htape]
    exact run_of_request_ok he
  · by_cases hroom : f.HasRoom i o compact
    · obtain ⟨m, h, hrun, hgrow, -⟩ := exists_jac_has hr hg hi ho compact symmetric hroom
      exact refusedFor_of_ok hrun hgrow (hr.not_derivativeFault hi ho) hroom
    · obtain ⟨h, hrun⟩ := hr.jac_withoutRoom hg hi ho symmetric hroom
      exact refusedFor_of_tooLarge hrun (hr.not_derivativeFault hi ho) hroom

/-- Where there is a Jacobian, there is a function that has it as its output. -/
theorem refusedFor_jacobian (i o : Nat) (compact symmetric : Bool) :
    (f.jacobian i o compact symmetric).RefusedFor g (f.DerivativeFault g i o)
      (f.HasRoom i o compact) := by
  have hjac := refusedFor_jac hready hg i o compact symmetric
  rw [jacobian]
  cases hrun : f.jac i o compact symmetric g with
  | error d h =>
    rw [RefusedFor, hrun] at hjac
    rw [RefusedFor, bind_of_error hrun]
    exact hjac
  | ok m h =>
    rw [RefusedFor, hrun] at hjac
    obtain ⟨hnone, hroom, hgrow⟩ := hjac
    obtain ⟨e, tape, hr, hi, ho⟩ := exists_ready hready hnone
    obtain ⟨m', h', hrun', -, hhas, -⟩ := exists_jac_has hr hg hi ho compact symmetric hroom
    rw [hrun] at hrun'
    cases hrun'
    obtain ⟨f', tape', hmake, -⟩ := hr.exists_withOutput hgrow hhas "jac_"
    exact refusedFor_of_ok ((bind_of_ok hrun).trans hmake) hgrow hnone hroom

theorem refusedFor_grad (i o : Nat) : (f.grad i o).RefusedFor g (f.GradientFault g i o) True :=
  refusedFor_shaped hready rfl fun _ _ hr hi ho hshape =>
    let ⟨m, h, hrun, hgrow, _⟩ := exists_grad hr hg hi ho hshape
    ⟨m, h, hrun, hgrow⟩

theorem refusedFor_tang (i o : Nat) : (f.tang i o).RefusedFor g (f.TangentFault g i o) True :=
  refusedFor_shaped hready rfl fun _ _ hr hi ho hshape =>
    let ⟨m, h, hrun, hgrow, _⟩ := exists_tang hr hg hi ho hshape
    ⟨m, h, hrun, hgrow⟩

/-- Where there is a gradient, there is a Hessian, if there is room for it. -/
theorem refusedFor_hess (i o : Nat) : (f.hess i o).RefusedFor g (f.GradientFault g i o)
    ((f.inPattern i).numel + 1 < tableLimit) := by
  have hgrad := refusedFor_grad hready hg i o
  rw [hess_eq]
  cases hrun : f.grad i o g with
  | error d h =>
    rw [RefusedFor, hrun] at hgrad
    obtain ⟨hfault, rfl⟩ := hgrad.resolve_right fun hroom => hroom.2.1 trivial
    exact refusedFor_of_error (bind_of_error (bind_of_error hrun)) hfault
  | ok m h =>
    rw [RefusedFor, hrun] at hgrad
    obtain ⟨hnone, -, -⟩ := hgrad
    obtain ⟨e, tape, hr, hi, ho⟩ := exists_ready hready fun d hd => hnone d (.inl hd)
    have hshape : (f.outPattern o).shape = (1, 1) := by
      by_contra hne
      exact hnone _ (.inr ⟨hi, ho, hne, rfl⟩)
    obtain ⟨gradient, e', tape', k, hgradient, hgrow, hr', hcount, hone, hin, hout, -⟩ :=
      exists_gradientFunction hr hg hi ho hshape
    have hiff : gradient.HasRoom i 0 false ↔ (f.inPattern i).numel + 1 < tableLimit := by
      have hlimits : tableLimit < countLimit := by decide
      rw [HasRoom, hin, hout]
      simp only [Bool.false_eq_true, false_or]
      omega
    have hi' : i < gradient.inCount := hcount ▸ hi
    have ho' : 0 < gradient.outCount := hone ▸ Nat.zero_lt_one
    by_cases hroom : gradient.HasRoom i 0 false
    · obtain ⟨J, k', hjac, hgrow', -⟩ :=
        exists_jac_has hr' (hg.grow hgrow) hi' ho' false true hroom
      exact refusedFor_of_ok ((bind_of_ok hgradient).trans hjac) (hgrow.trans hgrow') hnone
        (hiff.mp hroom)
    · obtain ⟨k', hjac⟩ := hr'.jac_withoutRoom (hg.grow hgrow) hi' ho' true hroom
      exact refusedFor_of_tooLarge ((bind_of_ok hgradient).trans hjac) hnone (hroom ∘ hiff.mpr)

end

/-! ### Calls -/

/-- A fault is the shape of an argument. -/
theorem exists_of_shapeFault? {mismatch : ShapeMismatch} {n : Nat} {patterns : List Pattern}
    {shapes : List Shape} (h : shapeFault? n patterns shapes = some mismatch) :
    ∃ k p s, patterns[k]? = some p ∧ shapes[k]? = some s ∧ s ≠ p.shape ∧
      mismatch = .argumentShape (n + k) p.shape s := by
  induction patterns generalizing n shapes with
  | nil => simp [shapeFault?] at h
  | cons p rest ih =>
    cases shapes with
    | nil => simp [shapeFault?] at h
    | cons s others =>
      rw [shapeFault?] at h
      split at h
      · obtain ⟨k, q, t, hq, ht, hne, rfl⟩ := ih h
        exact ⟨k + 1, q, t, hq, ht, hne, by rw [Nat.add_assoc, Nat.add_comm 1 k]⟩
      · rename_i hne
        exact ⟨0, p, s, rfl, rfl, hne, (Option.some.inj h).symm⟩

/-- Arguments are refused for their number or for the shape of one of them. -/
theorem callFault_of_checkArguments {arguments : List (SparseMatrix ScalarId)} {d : Error}
    (h : checkArguments f.inPatterns arguments = .error d) : f.CallFault g arguments d := by
  rw [checkArguments] at h
  split at h
  · rename_i hcount
    exact Except.error.inj h ▸ .count hcount
  · split at h
    · rename_i mismatch hfault
      obtain ⟨k, p, s, hp, hs, hne, rfl⟩ := exists_of_shapeFault? hfault
      rw [List.getElem?_map] at hs
      obtain ⟨m, hm, rfl⟩ := Option.map_eq_some_iff.mp hs
      rw [← Except.error.inj h, Nat.zero_add]
      exact .shape hp hm hne
    · contradiction

/-- A call that passes all checks is given no reason to be refused. -/
theorem not_callFault {arguments : List (SparseMatrix ScalarId)} (htape : f.stage.tape? = some tape)
    (hchecked : checkArguments f.inPatterns arguments = .ok ())
    (hknown : ∀ e ∈ handlesOf arguments, g.Has e)
    (hfree : tape.freeSymbols = [] ∨ f.livesIn g = true) (d : Error) :
    ¬ f.CallFault g arguments d := by
  have hshapes := checkArguments_eq_ok_iff.mp hchecked
  rintro (hdeclared | hcount | ⟨hp, hm, hne⟩ | ⟨he, hunknown⟩ | ⟨htape', hsome, hforeign⟩)
  · rw [isInitialized, htape] at hdeclared
    contradiction
  · exact hcount hshapes.length_eq.symm
  · obtain ⟨hk, rfl⟩ := List.getElem?_eq_some_iff.mp hp
    obtain ⟨hk', rfl⟩ := List.getElem?_eq_some_iff.mp hm
    exact hne (hshapes.get hk hk')
  · exact hunknown (hknown _ he)
  · rw [htape] at htape'
    obtain rfl := Option.some.inj htape'
    rcases hfree with hnone | hlives
    · exact hsome hnone
    · rw [hforeign] at hlives
      contradiction

/-- Calls, where free symbols are symbols of every graph that the function may be used in. -/
theorem refusedFor_call (hg : g.Founded)
    (hsymbols : ∀ tape, f.stage.tape? = some tape → f.livesIn g = true →
      ∀ e ∈ tape.freeSymbols, g.isSymbol e = true) (arguments : List (SparseMatrix ScalarId)) :
    (f.call arguments).RefusedFor g (f.CallFault g arguments) True := by
  cases htape : f.stage.tape? with
  | none =>
    have htape' : f.tape = .error (.notInitialized f.name) := by rw [ScalarFunction.tape, htape]
    refine refusedFor_of_error ?_ (.declared (by rw [isInitialized, htape]; rfl))
    rw [call, htape']
    rfl
  | some tape =>
    have htape' := tape_eq_ok htape
    cases hchecked : checkArguments f.inPatterns arguments with
    | error d =>
      refine refusedFor_of_error ?_ (callFault_of_checkArguments hchecked)
      rw [call, htape', hchecked]
      rfl
    | ok u =>
      cases hunknown : g.unknown? (handlesOf arguments) with
      | some e =>
        have hno : ¬ g.Has e := by
          rintro ⟨n, hn⟩
          have := List.find?_some hunknown
          simp [hn] at this
        refine refusedFor_of_error ?_ (.unknown (List.mem_of_find?_eq_some hunknown) hno)
        rw [call_of_checked htape hchecked, hunknown]
        rfl
      | none =>
        have hknown : ∀ e ∈ handlesOf arguments, g.Has e := fun e he =>
          ScalarGraph.has_of_unknown? hunknown he
        by_cases hfree : tape.freeSymbols = [] ∨ f.livesIn g = true
        · have hfreeSymbols : ∀ e ∈ tape.freeSymbols, g.isSymbol e = true := by
            rcases hfree with hnone | hlives
            · simp [hnone]
            · exact hsymbols tape htape hlives
          obtain ⟨ms, h, hrun, hgrow, -⟩ := yields_call Algebra.simplifies_trivial (fun _ => ⟨⟩)
            htape hchecked hknown hfree hfreeSymbols hg
          exact refusedFor_of_ok hrun hgrow (not_callFault htape hchecked hknown hfree) trivial
        · obtain ⟨hsome, hforeign⟩ := not_or.mp hfree
          have hvalues : f.freeValues g tape = .error (.freeSymbols tape.freeNames) := by
            rw [freeValues, if_neg (by rwa [Bool.or_eq_true, List.isEmpty_iff])]
          refine refusedFor_of_error ?_ (.free htape hsome (Bool.eq_false_iff.mpr hforeign))
          rw [call_of_checked htape hchecked, hunknown, hvalues]
          rfl

/-! ### Places -/

theorem forall_mem_lookup (p : Pattern) (options : FunctionOptions) (symmetric : Bool) :
    ∀ place ∈ (JacobianPlan.make p options symmetric).lookup,
      place.1 < (JacobianPlan.make p options symmetric).sweeps.length ∧
        place.2 < (JacobianPlan.make p options symmetric).components p := by
  have hshows : List.Forall₂ ((JacobianPlan.make p options symmetric).Shows p
      (0 : Nat → Nat → Nat)) p.positions (JacobianPlan.make p options symmetric).lookup :=
    JacobianPlan.shows_make options (fun _ _ _ => rfl) fun _ _ _ _ => rfl
  intro place hplace
  obtain ⟨k, hk, rfl⟩ := List.getElem_of_mem hplace
  have hplaced := hshows.get (hshows.length_eq ▸ hk) hk
  exact ⟨hplaced.1, hplaced.2.1⟩

end ScalarFunction

/-! ### Functions of histories -/

namespace ScalarHistory

variable {gs : GraphId → Option ScalarGraph} {fs : List ScalarFunction}

theorem inRange (hist : ScalarHistory gs fs) {f : ScalarFunction} (hf : f ∈ fs) {tape : ScalarTape}
    (htape : f.stage.tape? = some tape) : tape.InRange f.inSizes f.outSizes := by
  obtain ⟨e, hholds, -, ⟨h, hh, hlives⟩, hresides⟩ := hist.exists_resides hf htape
  obtain ⟨origin, _, hcompiled, -⟩ := hresides hh hlives
  rw [hholds.inSizes, hholds.outSizes]
  exact hcompiled.inRange

/-- **Requests to scalar functions are refused for the reasons that they name and no others.** However
far a function has come, and in its own graph, in a copy or in a foreign one: a request that is refused
leaves the graph as it was, and one that has nothing to be refused for succeeds, unless the starts of
a Jacobian do not fit into a table. -/
theorem refuses (hist : ScalarHistory gs fs) {f : ScalarFunction} (hf : f ∈ fs) {id : GraphId}
    {g : ScalarGraph} (hg : gs id = some g) : f.Refuses g := by
  have hready : ∀ e tape, f.stage = .initialized e tape → f.livesIn g = true → f.Ready g e tape :=
    fun e tape hstage hlives => hist.ready hf hstage hg hlives
  have hfounded := hist.founded hg
  exact
    { jac := ScalarFunction.refusedFor_jac hready hfounded
      jacobian := ScalarFunction.refusedFor_jacobian hready hfounded
      grad := ScalarFunction.refusedFor_grad hready hfounded
      tang := ScalarFunction.refusedFor_tang hready hfounded
      hess := ScalarFunction.refusedFor_hess hready hfounded
      call := ScalarFunction.refusedFor_call hfounded fun tape htape hlives e he => by
        obtain ⟨_, -, -, -, hresides⟩ := hist.exists_resides hf htape
        exact ((hresides hg hlives).free he).1
      inRange := fun tape htape => hist.inRange hf htape
      found := fun p symmetric => ScalarFunction.forall_mem_lookup p f.options symmetric }

end ScalarHistory

namespace Product

/-- The product of two symbols, when it has been compiled and when it has not. -/
theorem refuses_product :
    (functionAt (.initialized expressions tape)).Refuses graph ∧
      (functionAt (.declared expressions)).Refuses graph := by
  have hgraph : graphs (.numbered 0) = some graph := Function.update_self ..
  exact ⟨history.refuses (List.mem_cons_self ..) hgraph,
    history.refuses (List.mem_cons_of_mem _ (List.mem_cons_self ..)) hgraph⟩

end Product

/-! ### A Jacobian without room -/

namespace SparseColumn

/-- One nonzero in a column that has as many rows as no table has entries. -/
def column : Pattern := .ofPositions tableLimit 1 [(0, 0)]

/-- A symbol and its sine. -/
def graph : ScalarGraph :=
  (ScalarBuilder.unary .sin ⟨3⟩).after ((ScalarGraph.new (.numbered 0)).symbol "x").2

/-- The sine as a function of the column. -/
def expressions : ScalarFunction.Expressions :=
  ⟨[⟨column, [⟨3⟩], rfl⟩], [.scalar ⟨4⟩], none⟩

def tape : ScalarTape where
  instrs := [.input 0 0 0, .unary .sin 0 0, .output 0 0 0]
  freeSymbols := []
  freeNames := []
  workSize := 1

def functionAt (stage : ScalarFunction.Stage) : ScalarFunction where
  options := {}
  owner := ⟨.numbered 0, 4⟩
  inPatterns := [column]
  outPatterns := [.scalar]
  stage := stage

def graphs : GraphId → Option ScalarGraph :=
  Function.update (Function.update (fun _ => none) (.numbered 0) (some (.new (.numbered 0))))
    (.numbered 0) (some graph)

theorem history : ScalarHistory graphs
    [functionAt (.initialized expressions tape), functionAt (.declared expressions)] := by
  have hgraphs : ScalarHistory graphs [] :=
    .grow (.new _ .start rfl) (Function.update_self ..)
      ((ScalarGraph.grows_symbol _ "x").trans (ScalarBuilder.growing_unary .sin ⟨3⟩ _))
  have hdeclared : ScalarHistory graphs [functionAt (.declared expressions)] :=
    .declare hgraphs (i := .numbered 0) (Function.update_self ..)
      (show ScalarFunction.declare graph expressions.inputs expressions.outputs {} = _ from rfl)
  exact .init hdeclared (i := .numbered 0) (Function.update_self ..) (List.mem_singleton_self _)
    (show (functionAt (.declared expressions)).init graph = _ from rfl)

/-- The elements of the column can be counted, and there is no reason to refuse a Jacobian. Still there
is no room for the starts of its columns. -/
theorem jac_tooLarge :
    ScalarHistory graphs
        [functionAt (.initialized expressions tape), functionAt (.declared expressions)] ∧
      graphs (.numbered 0) = some graph ∧
      (functionAt (.initialized expressions tape)).livesIn graph = true ∧
      column.nrows * column.ncols < countLimit ∧
      (∀ d, ¬ (functionAt (.initialized expressions tape)).DerivativeFault graph 0 0 d) ∧
      ∃ h, (functionAt (.initialized expressions tape)).jac 0 0 false false graph
        = .error .tooLarge h := by
  refine ⟨history, Function.update_self .., rfl, by decide, ?_, _, rfl⟩
  rintro d (h | h | h | h | h) <;> revert h <;> decide

end SparseColumn

end Fluxion
