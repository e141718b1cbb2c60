import Fluxion.Proofs.Matrix.Identities
import Fluxion.Proofs.Refusals.Scalar

/-!
# What a function object answers

A scalar function is asked for values, for expressions, for dependencies, to be embedded and for its
derivative functions. All of this needs the tape and the patterns, and none of it the expressions that
the function was declared with. So objects with the same tape answer the same, under whatever identity,
and with their expressions or without.

The graph that a function belongs to matters for free symbols only: these are there in graphs that have
the expressions of the function. A tape without free symbols can be used anywhere, and that of a
derivative function is such a tape.

Without a tape none of this is answered. Some requests look at something else first, such as the number
of an input, and then they may fail for that.

## Main definitions

* `FunctionObject.SameAnswers` — two objects answer the same
* `FunctionObject.AwaitsInit` — what an object without a tape answers
* `ScalarFunction.Alike` — functions with the same algorithm

## Main results

* `FunctionObject.awaitsInit` — **without a tape nothing that needs one succeeds**
* `FunctionObject.sameAnswers_of_alike` — **objects with one algorithm answer the same**
* `FunctionObject.sameAnswers_as` — derivative functions answer the same in any graph of their own
-/

namespace Fluxion

/-! ### Answers -/

namespace FunctionObject

/-- The forward derivative function of an object. -/
def forwardDerivative (o : FunctionObject) : Except Error FunctionObject := do
  (← o.routine).forwardDerivative

/-- The reverse derivative function of an object. -/
def reverseDerivative (o : FunctionObject) : Except Error FunctionObject := do
  (← o.routine).reverseDerivative

/-- Two objects answer the same, whatever their identities are. Embedded, they stand for the same
matrices, and their derivative functions are the same but for the graph that they live in. -/
structure SameAnswers (o p : FunctionObject) : Prop where
  eval : ∀ arguments, p.function.eval arguments = o.function.eval arguments
  call : ∀ arguments g, p.function.call arguments g = o.function.call arguments g
  dependencyPattern : ∀ i j, p.function.dependencyPattern i j = o.function.dependencyPattern i j
  embedding : ∀ arguments (g : MatrixGraph), g.WellTyped →
    g.SameOutcome (MatrixBuilder.call o arguments g) (MatrixBuilder.call p arguments g)
  forwardDerivative : p.forwardDerivative = o.forwardDerivative.map (·.as p.forwardId)
  reverseDerivative : p.reverseDerivative = o.reverseDerivative.map (·.as p.reverseId)

/-- The error of a function that has no tape, for a request that looks at something else first: what is
wrong there, or else that there is no tape. -/
def refusal {α : Type} (o : FunctionObject) : Except Error α → Error
  | .error d => d
  | .ok _ => .notInitialized o.function.name

/-- What a derivative in a graph needs first if a pattern has to be 1x1. -/
def requestShaped (o : FunctionObject) (mismatch : Shape → ShapeMismatch) (shape : Shape)
    (g : ScalarGraph) (i j : Nat) : Except Error Unit := do
  let _ ← o.function.request g i j
  if shape = (1, 1) then return () else throw (.shape (mismatch shape))

/-- Every request that needs a tape fails, since there is none. It fails for this reason, unless what it
looks at before the tape is wrong already. -/
structure AwaitsInit (o : FunctionObject) : Prop where
  tape : o.function.tape = .error (.notInitialized o.function.name)
  countNodes : (Function.scalar o).countNodes = .error (.notInitialized o.function.name)
  workSize : (Function.scalar o).workSize = .error (.notInitialized o.function.name)
  freeCount : (Function.scalar o).freeCount = .error (.notInitialized o.function.name)
  clear : o.function.clear = .error (.notInitialized o.function.name)
  eval : ∀ arguments, o.function.eval arguments = .error (.notInitialized o.function.name)
  call : ∀ arguments g, o.function.call arguments g = .error (.notInitialized o.function.name) g
  dependencyPattern : ∀ i j, o.function.dependencyPattern i j
    = .error (o.refusal (do checkInput i o.function.inCount; checkOutput j o.function.outCount))
  jac : ∀ i j compact symmetric g, o.function.jac i j compact symmetric g
    = .error (o.refusal (o.function.request g i j)) g
  jacobian : ∀ i j compact symmetric g, o.function.jacobian i j compact symmetric g
    = .error (o.refusal (o.function.request g i j)) g
  grad : ∀ i j g, o.function.grad i j g
    = .error (o.refusal (o.requestShaped .gradient (o.function.outPattern j).shape g i j)) g
  tang : ∀ i j g, o.function.tang i j g
    = .error (o.refusal (o.requestShaped .tangent (o.function.inPattern i).shape g i j)) g
  hess : ∀ i j g, o.function.hess i j g
    = .error (o.refusal (o.requestShaped .gradient (o.function.outPattern j).shape g i j)) g
  embedding : ∀ arguments g,
    MatrixBuilder.call o arguments g = .error (.notInitialized o.function.name) g
  forwardDerivative : o.forwardDerivative = .error (.notInitialized o.function.name)
  reverseDerivative : o.reverseDerivative = .error (.notInitialized o.function.name)

variable {o p : FunctionObject}

theorem routine_eq_error {d : Error} (htape : o.function.tape = .error d) : o.routine = .error d := by
  rw [routine, htape]
  rfl

/-- A request that looks at a shape before it looks at the tape. -/
theorem run_shaped {α : Type} {k : ScalarFunction.Expressions → ScalarTape → ScalarBuilder α}
    (htape : o.function.tape = .error (.notInitialized o.function.name))
    (mismatch : Shape → ShapeMismatch) (shape : Shape) (i j : Nat) (g : ScalarGraph) :
    (do
      let e ← .ofExcept (o.function.request (← get) i j)
      if shape ≠ (1, 1) then throw (.shape (mismatch shape))
      let tape ← .ofExcept o.function.tape
      k e tape : ScalarBuilder α) g
      = .error (o.refusal (o.requestShaped mismatch shape g i j)) g := by
  rw [requestShaped]
  cases hrequest : o.function.request g i j with
  | error d => exact ScalarFunction.run_of_request_error hrequest
  | ok e =>
    refine (ScalarFunction.run_of_request_ok hrequest).trans ?_
    dsimp only
    by_cases hshape : shape = (1, 1)
    · rw [if_pos hshape, if_neg (not_not.mpr hshape), htape]
      rfl
    · rw [if_neg hshape, if_pos hshape]
      rfl

/-- **Without a tape nothing that needs one succeeds.** -/
theorem awaitsInit (h : o.function.isInitialized = false) : o.AwaitsInit := by
  have htape : o.function.tape = .error (.notInitialized o.function.name) := by
    rw [ScalarFunction.isInitialized, Option.isSome_eq_false_iff, Option.isNone_iff_eq_none] at h
    rw [ScalarFunction.tape, h]
  have hroutine := routine_eq_error htape
  have hjac : ∀ i j compact symmetric g, o.function.jac i j compact symmetric g
      = .error (o.refusal (o.function.request g i j)) g := by
    intro i j compact symmetric g
    rw [ScalarFunction.jac, htape]
    show (ScalarBuilder.ofExcept (o.function.request g i j) >>= _) g = _
    cases o.function.request g i j <;> rfl
  have hgrad : ∀ i j g, o.function.grad i j g
      = .error (o.refusal (o.requestShaped .gradient (o.function.outPattern j).shape g i j)) g :=
    fun i j => run_shaped htape .gradient _ i j
  exact {
    tape := htape
    countNodes := by rw [Function.countNodes, htape]; rfl
    workSize := by rw [Function.workSize, htape]; rfl
    freeCount := by rw [Function.freeCount, htape]; rfl
    clear := by rw [ScalarFunction.clear, htape]; rfl
    eval := fun arguments => by rw [ScalarFunction.eval, htape]; rfl
    call := fun arguments g => by rw [ScalarFunction.call, htape]; rfl
    dependencyPattern := by
      intro i j
      rw [ScalarFunction.dependencyPattern, htape]
      cases checkInput i o.function.inCount with
      | error d => rfl
      | ok _ => cases checkOutput j o.function.outCount <;> rfl
    jac := hjac
    jacobian := fun i j compact symmetric g =>
      ScalarBuilder.bind_of_error (hjac i j compact symmetric g)
    grad := hgrad
    tang := fun i j => run_shaped htape .tangent _ i j
    hess := fun i j g => ScalarBuilder.bind_of_error (hgrad i j g)
    embedding := fun arguments g => by rw [MatrixBuilder.call, hroutine]; rfl
    forwardDerivative := by rw [forwardDerivative, hroutine]; rfl
    reverseDerivative := by rw [reverseDerivative, hroutine]; rfl }

end FunctionObject

/-! ### Functions that answer the same -/

/-- Two functions have the same algorithm. They may keep different expressions, and they may belong to
different graphs if nothing of these graphs is needed. -/
structure ScalarFunction.Alike (f f' : ScalarFunction) : Prop where
  options : f'.options = f.options
  inPatterns : f'.inPatterns = f.inPatterns
  outPatterns : f'.outPatterns = f.outPatterns
  tape? : f'.stage.tape? = f.stage.tape?
  owner : f'.owner = f.owner ∨ ∀ tape, f.stage.tape? = some tape → tape.freeSymbols = []

namespace ScalarFunction.Alike

variable {f f' : ScalarFunction}

theorem tape (h : f.Alike f') : f'.tape = f.tape := by
  rw [ScalarFunction.tape, ScalarFunction.tape, ScalarFunction.name, ScalarFunction.name, h.tape?,
    h.options]

theorem inSizes (h : f.Alike f') : f'.inSizes = f.inSizes := by
  rw [ScalarFunction.inSizes, ScalarFunction.inSizes, h.inPatterns]

theorem outSizes (h : f.Alike f') : f'.outSizes = f.outSizes := by
  rw [ScalarFunction.outSizes, ScalarFunction.outSizes, h.outPatterns]

theorem freeValues (h : f.Alike f') (g : ScalarGraph) {t : ScalarTape}
    (ht : f.stage.tape? = some t) : f'.freeValues g t = f.freeValues g t := by
  rw [ScalarFunction.freeValues, ScalarFunction.freeValues]
  rcases h.owner with howner | hclosed
  · rw [livesIn, livesIn, howner]
  · rw [hclosed t ht]
    rfl

theorem eval (h : f.Alike f') (arguments : List (SparseMatrix Binary64)) :
    f'.eval arguments = f.eval arguments := by
  rw [ScalarFunction.eval, ScalarFunction.eval, h.tape, h.inPatterns, h.outPatterns, h.outSizes]

theorem call (h : f.Alike f') (arguments : List (SparseMatrix ScalarId)) :
    f'.call arguments = f.call arguments := by
  rw [ScalarFunction.call, ScalarFunction.call, h.tape, h.inPatterns, h.outPatterns, h.outSizes]
  cases ht : f.stage.tape? with
  | none =>
    rw [ScalarFunction.tape, ht]
    rfl
  | some t =>
    rw [show f.tape = .ok t by rw [ScalarFunction.tape, ht]]
    have hok : ScalarBuilder.ofExcept (.ok t) = (pure t : ScalarBuilder ScalarTape) := rfl
    simp only [hok, pure_bind, h.freeValues _ ht]

theorem dependencyPattern (h : f.Alike f') (i o : Nat) :
    f'.dependencyPattern i o = f.dependencyPattern i o := by
  rw [ScalarFunction.dependencyPattern, ScalarFunction.dependencyPattern, h.tape, h.inSizes,
    h.outSizes, inCount, inCount, outCount, outCount, inPattern, inPattern, h.inPatterns,
    h.outPatterns]

end ScalarFunction.Alike

namespace FunctionObject

variable {o p d : FunctionObject}

/-- Objects with one algorithm are routines that differ in their identities, or none. -/
theorem routine_alike (h : o.function.Alike p.function) :
    (∃ d, o.routine = .error d ∧ p.routine = .error d) ∨
      ∃ r s, o.routine = .ok r ∧ p.routine = .ok s ∧ r.Alike s ∧
        s.forwardId = p.forwardId ∧ s.reverseId = p.reverseId := by
  have htape := h.tape
  rw [routine, routine, htape]
  cases o.function.tape with
  | error d => exact .inl ⟨d, rfl, rfl⟩
  | ok tape =>
    by_cases hclosed : tape.freeSymbols = []
    · refine .inr ⟨_, _, dif_pos hclosed, dif_pos hclosed, ?_, rfl, rfl⟩
      exact ⟨h.options, h.inPatterns, h.outPatterns, rfl⟩
    · exact .inl ⟨_, dif_neg hclosed, dif_neg hclosed⟩

/-- **Objects with one algorithm answer the same.** -/
theorem sameAnswers_of_alike (h : o.function.Alike p.function) : o.SameAnswers p where
  eval := h.eval
  call := fun arguments g => congrFun (h.call arguments) g
  dependencyPattern := h.dependencyPattern
  embedding := by
    intro arguments g hg
    rw [MatrixBuilder.call, MatrixBuilder.call]
    rcases routine_alike h with ⟨d, ho, hp⟩ | ⟨r, s, ho, hp, hsame, -, -⟩
    · rw [ho, hp]
      exact ⟨rfl, rfl⟩
    · rw [ho, hp]
      exact MatrixBuilder.sameOutcome_callRoutine hsame hg arguments
  forwardDerivative := by
    rw [FunctionObject.forwardDerivative, FunctionObject.forwardDerivative]
    rcases routine_alike h with ⟨d, ho, hp⟩ | ⟨r, s, ho, hp, hsame, hid, -⟩
    · rw [ho, hp]
      rfl
    · rw [ho, hp, ← hid]
      exact hsame.forwardDerivative
  reverseDerivative := by
    rw [FunctionObject.reverseDerivative, FunctionObject.reverseDerivative]
    rcases routine_alike h with ⟨d, ho, hp⟩ | ⟨r, s, ho, hp, hsame, -, hid⟩
    · rw [ho, hp]
      rfl
    · rw [ho, hp, ← hid]
      exact hsame.reverseDerivative

/-- A routine can be made of a derivative function. -/
theorem exists_routine_of_derivative (hd : o.forwardDerivative = .ok d ∨ o.reverseDerivative = .ok d) :
    ∃ s, d.routine = .ok s := by
  rw [forwardDerivative, reverseDerivative] at hd
  cases hr : o.routine with
  | error e =>
    rw [hr] at hd
    rcases hd with hd | hd <;> contradiction
  | ok r =>
    rw [hr] at hd
    obtain ⟨d₁, s₁, hd₁, hs₁⟩ := r.exists_forwardDerivative
    obtain ⟨d₂, s₂, hd₂, hs₂⟩ := r.exists_reverseDerivative
    rcases hd with hd | hd
    · obtain rfl : d₁ = d := Except.ok.inj (hd₁.symm.trans hd)
      exact ⟨s₁, hs₁⟩
    · obtain rfl : d₂ = d := Except.ok.inj (hd₂.symm.trans hd)
      exact ⟨s₂, hs₂⟩

/-- Derivative functions need nothing of the graph that they live in, so they answer the same in the
graph of another identity. -/
theorem sameAnswers_as (hd : o.forwardDerivative = .ok d ∨ o.reverseDerivative = .ok d)
    (id : FunctionId) : d.SameAnswers (d.as id) := by
  obtain ⟨s, hs⟩ := exists_routine_of_derivative hd
  refine sameAnswers_of_alike ⟨rfl, rfl, rfl, d.function.stage.tape?_under, .inr ?_⟩
  intro tape htape
  rw [← Routine.tape_of_routine htape hs]
  exact s.closed

end FunctionObject

end Fluxion
