import Fluxion.Proofs.History.Ownership
import Fluxion.Proofs.Jacobian.Routines
import Fluxion.Proofs.Matrix.Stored
import Fluxion.Proofs.Scalar.Lookup
import Fluxion.Proofs.Scalar.Simplification

/-!
# Calls of scalar functions

A call runs the tape of a function over expressions. What it returns are expressions of the graph that
it was made in, and two things are known of them.

Their values are those of the tape at the values of the arguments, over every algebra that obeys the
laws of the builders. Arguments may be any expressions on any patterns, results of other calls as well
as literals: the run may simplify as it likes, and only has to keep a relation between expressions and
values.

On the inputs of the function itself they are its outputs, the very same handles. This is a matter of
how graphs are built, so it holds in graphs that were built by requests, and no algebra is involved.

## Main definitions

* `argumentValues` — the values of arguments, where the inputs have nonzeros

## Main results

* `ScalarWorld.call_inputs` — **a function of its own inputs is its outputs**
* `ScalarHistory.call_composes` — **calls are composition**
-/

namespace Fluxion

open ScalarBuilder

/-! ### Arguments -/

namespace SparseMatrix

variable {α : Type}

/-- A matrix on another pattern has the elements that it has there. -/
theorem values_onPattern (m : SparseMatrix α) (p : Pattern) (zero : α) :
    (m.onPattern p zero).values = p.elements fun r c => m.getD r c zero := by
  show ((m.pattern.locate p).map fun source => (source.bind (m.values.toArray[·]?)).getD zero) = _
  rw [Pattern.locate_eq_map_find?, List.map_map]
  refine List.map_congr_left fun place _ => ?_
  simp only [Function.comp_apply, getD, get?, List.getElem?_toArray]

theorem mem_values_of_get? {m : SparseMatrix α} {r c : Nat} {v : α} (h : m.get? r c = some v) :
    v ∈ m.values := by
  obtain ⟨k, -, hk⟩ := Option.bind_eq_some_iff.mp h
  exact List.mem_of_getElem? hk

end SparseMatrix

/-- The values of arguments at the nonzeros of the inputs. What an argument has elsewhere is ignored,
and what it lacks is zero. -/
def argumentValues {α V : Type} (value : α → V) (zero : V) (patterns : List Pattern)
    (arguments : List (SparseMatrix α)) : Bundle V :=
  List.zipWith (fun p m => p.elements fun r c => (m.get? r c).elim zero value) patterns arguments

namespace ScalarFunction

variable {f : ScalarFunction} {g : ScalarGraph} {tape : ScalarTape}
  {arguments : List (SparseMatrix ScalarId)}

/-- Arguments on the patterns of the inputs have the values that arguments have there. -/
theorem forall₂_arrange {V : Type} {R : ScalarId → V → Prop} {value : ScalarId → V} {zero : V}
    (patterns : List Pattern) (hzero : R .zero zero)
    (hvalue : ∀ e ∈ handlesOf arguments, R e (value e)) :
    List.Forall₂ (List.Forall₂ R) (arrange patterns arguments .zero)
      (argumentValues value zero patterns arguments) := by
  induction arguments generalizing patterns with
  | nil =>
    rw [argumentValues, List.zipWith_nil_right]
    exact .nil
  | cons m rest ih =>
    cases patterns with
    | nil => exact .nil
    | cons p patterns =>
      refine .cons ?_ (ih patterns fun e he => hvalue e (List.mem_append_right _ he))
      simp only [SparseMatrix.values_onPattern]
      refine forall₂_map_same _ fun place _ => ?_
      show R ((m.get? place.1 place.2).getD .zero) ((m.get? place.1 place.2).elim zero value)
      cases hm : m.get? place.1 place.2 with
      | none => exact hzero
      | some e => exact hvalue e (List.mem_append_left _ (SparseMatrix.mem_values_of_get? hm))

/-! ### Calls -/

theorem tape_eq_ok (htape : f.stage.tape? = some tape) : f.tape = .ok tape := by
  rw [ScalarFunction.tape, htape]

/-- A call goes on with the handles of the arguments, once the tape and the shapes are in order. -/
theorem call_of_checked (htape : f.stage.tape? = some tape)
    (hchecked : checkArguments f.inPatterns arguments = .ok ()) :
    f.call arguments g = (do
      match g.unknown? (handlesOf arguments) with
      | some e => throw (.unknownExpression e.index)
      | none => pure ()
      let free ← .ofExcept (f.freeValues g tape)
      let outputs ← tape.replay scalarAlgebra (arrange f.inPatterns arguments .zero) free f.outSizes
      return wrap f.outPatterns outputs .zero : ScalarBuilder _) g := by
  rw [call, tape_eq_ok htape, hchecked]
  refine (bind_of_ok (a := tape) (h := g) rfl).trans ?_
  refine (bind_of_ok (a := ()) (h := g) rfl).trans ?_
  exact bind_of_ok (show (get : ScalarBuilder ScalarGraph) g = .ok g g from rfl)

/-- A call of a function that has a tape is a replay, if the arguments pass the checks and the graph
has the free symbols. -/
theorem call_eq (htape : f.stage.tape? = some tape)
    (hchecked : checkArguments f.inPatterns arguments = .ok ())
    (hknown : ∀ e ∈ handlesOf arguments, g.Has e)
    (hfree : tape.freeSymbols = [] ∨ f.livesIn g = true) :
    f.call arguments g = (do
      let outputs ← tape.replay scalarAlgebra (arrange f.inPatterns arguments .zero)
        tape.freeSymbols f.outSizes
      return wrap f.outPatterns outputs .zero : ScalarBuilder _) g := by
  have hvalues : f.freeValues g tape = .ok tape.freeSymbols := by
    rw [freeValues]
    rcases hfree with hnone | hlives
    · rw [hnone]
      rfl
    · rw [hlives, Bool.or_true]
      rfl
  rw [call_of_checked htape hchecked, ScalarGraph.unknown?_eq_none hknown, hvalues]
  exact bind_of_ok (a := tape.freeSymbols) (h := g) rfl

/-- **Calls compute the tape** at the values of the arguments. -/
theorem yields_call {V : Type} [CommRing V] {A : Algebra Id V} (hA : A.Simplifies)
    (given : ScalarId → V) (htape : f.stage.tape? = some tape)
    (hchecked : checkArguments f.inPatterns arguments = .ok ())
    (hknown : ∀ e ∈ handlesOf arguments, g.Has e)
    (hfree : tape.freeSymbols = [] ∨ f.livesIn g = true)
    (hsymbols : ∀ e ∈ tape.freeSymbols, g.isSymbol e = true) :
    Yields (f.call arguments) g fun ms h =>
      ms.map SparseMatrix.pattern = f.outPatterns ∧ (A.Exact h.folds →
        ms.map (fun m => m.values.map (h.evaluate A given))
          = Id.run (tape.replay A (argumentValues (g.evaluate A given) 0 f.inPatterns arguments)
            (tape.freeSymbols.map given) f.outSizes)) := by
  intro hg
  rw [call_eq htape hchecked hknown hfree]
  have harguments : List.Forall₂ (List.Forall₂ (g.Carries A given))
      (arrange f.inPatterns arguments .zero)
      (argumentValues (g.evaluate A given) 0 f.inPatterns arguments) :=
    forall₂_arrange f.inPatterns ⟨⟨_, hg.zero⟩, fun _ => hg.evaluate_zero hA.toOnRing given⟩
      fun e he => ⟨hknown e he, fun _ => rfl⟩
  have hstill : List.Forall₂ (g.Carries A given) tape.freeSymbols (tape.freeSymbols.map given) :=
    List.forall₂_map_right_iff.mpr (List.forall₂_same.mpr fun e he =>
      ⟨ScalarGraph.has_of_isSymbol (hsymbols e he), fun _ =>
        ScalarGraph.evaluate_of_isSymbol (hsymbols e he)⟩)
  refine ((ScalarTape.yields_replay (ScalarGraph.simulates_carries hA given) tape
    (.of_forall₂ harguments) hstill f.outSizes).bind fun rows h _ hrows => yields_pure
      ⟨patterns_wrap .., fun hexact => ?_⟩) hg
  have hwrapped := forall₂_wrap f.outPatterns hrows (ScalarTape.map_length_replay ..) .zero
  have hvalues := MatrixFunction.eq_map_of_forall₂_carries hexact hwrapped
  rwa [List.map_map] at hvalues

/-- Outputs are made of their patterns and their values. -/
theorem wrap_values (outputs : List (SparseMatrix ScalarId)) :
    wrap (outputs.map SparseMatrix.pattern) (outputs.map SparseMatrix.values) .zero = outputs := by
  have hfitted : ∀ m : SparseMatrix ScalarId, SparseMatrix.fitted m.pattern m.values .zero = m := by
    rintro ⟨p, values, hlength⟩
    have hvalues : (SparseMatrix.fitted p values ScalarId.zero).values = values :=
      SparseMatrix.values_fitted hlength
    rw [SparseMatrix.fitted] at hvalues ⊢
    simpa using hvalues
  rw [wrap_map]
  exact (List.map_congr_left fun m _ => hfitted m).trans (List.map_id outputs)

/-- Inputs pass the checks as arguments, and are on their patterns as they are. -/
theorem checkArguments_inputs (inputs : List (SparseMatrix ScalarId)) :
    checkArguments (inputs.map SparseMatrix.pattern) inputs = .ok () :=
  checkArguments_eq_ok_iff.mpr (List.forall₂_map_left_iff.mpr (List.forall₂_same.mpr fun _ _ => rfl))

theorem arrange_inputs (inputs : List (SparseMatrix ScalarId)) :
    arrange (inputs.map SparseMatrix.pattern) inputs .zero = inputs.map SparseMatrix.values := by
  rw [arrange, List.zipWith_map_right, List.zipWith_self]
  exact List.map_congr_left fun m _ => values_onPattern_self m

end ScalarFunction

/-! ### Functions of their own inputs -/

namespace ScalarWorld

/-- **A function of its own inputs is its outputs**, handle for handle, in every graph that passes the
check of ownership, and that graph is left as it is. Free symbols may be among the expressions. -/
theorem call_inputs {w : ScalarWorld} (hw : start.Leads w) {f : ScalarFunction}
    (hf : f ∈ w.functions) {e : ScalarFunction.Expressions} {tape : ScalarTape}
    (hstage : f.stage = .initialized e tape) {i : GraphId} {g : ScalarGraph}
    (hg : w.graphs i = some g) (hlives : f.livesIn g = true) :
    f.call f.inputs g = .ok f.outputs g := by
  have hkept := kept_of_reachable hw
  have hirreducible := (hkept.reachable i g hg).invariant
  obtain ⟨fs, hsubset, hist⟩ := hkept.history
  obtain ⟨hholds, hresides⟩ := hist.resides (hsubset hf) hstage hg hlives
  have htape : f.stage.tape? = some tape := by rw [hstage]; rfl
  have hinputs : f.inputs = e.inputs := by rw [ScalarFunction.inputs, hstage]; rfl
  have houtputs : f.outputs = e.outputs := by rw [ScalarFunction.outputs, hstage]; rfl
  have hknown : ∀ d ∈ ScalarFunction.handlesOf e.inputs, g.Has d := by
    intro d hd
    rw [← ScalarTape.map_e_places] at hd
    obtain ⟨p, hp, rfl⟩ := List.mem_map.mp hd
    exact ScalarGraph.has_of_isSymbol (hresides.isSymbol_input hp)
  have hchecked : checkArguments f.inPatterns e.inputs = .ok () := by
    rw [hholds.inPatterns]
    exact ScalarFunction.checkArguments_inputs e.inputs
  rw [hinputs, houtputs, ScalarFunction.call_eq htape hchecked hknown (.inr hlives),
    hholds.inPatterns, ScalarFunction.arrange_inputs, hholds.outSizes,
    bind_of_ok (hresides.replay_own hirreducible), hholds.outPatterns, ScalarFunction.wrap_values]
  rfl

end ScalarWorld

namespace DampedSine

/-- The sine and its product with `y`, as a function of `x` alone. -/
def functionAt (stage : ScalarFunction.Stage) : ScalarFunction where
  options := {}
  owner := ⟨.numbered 0, 6⟩
  inPatterns := [.scalar]
  outPatterns := [.scalar, .denseColumn 2]
  stage := stage

def expressions : ScalarFunction.Expressions := ⟨[.scalar ⟨3⟩], outputs, none⟩

/-- A copy of the graph, to which a cosine has been added. -/
def copy : ScalarGraph := (ScalarRequest.unary .cos ⟨3⟩).after (graph.fork (.numbered 1))

theorem exists_world : ∃ w : ScalarWorld, ScalarWorld.start.Leads w ∧
    w.graphs (.numbered 1) = some copy ∧ functionAt (.initialized expressions tape) ∈ w.functions := by
  have hnew := Relation.ReflTransGen.single
    (@ScalarWorld.Step.new (fun _ => none) [] (.numbered 0) rfl)
  have hx := hnew.tail (.request (.symbol "x") (i := .numbered 0) rfl)
  have hy := hx.tail (.request (.symbol "y") (i := .numbered 0) rfl)
  have hsine := hy.tail (.request (.unary .sin ⟨3⟩) (i := .numbered 0) rfl)
  have hproduct := hsine.tail (.request (.binary .mul ⟨5⟩ ⟨4⟩) (i := .numbered 0) rfl)
  have hdeclare : ScalarFunction.declare graph expressions.inputs expressions.outputs {}
      = .ok (functionAt (.declared expressions)) := rfl
  have hdeclared := hproduct.tail (.declare (i := .numbered 0) rfl hdeclare)
  have hinit : (functionAt (.declared expressions)).init graph
      = .ok (functionAt (.initialized expressions tape)) := rfl
  have hinitialized := hdeclared.tail
    (.init (i := .numbered 0) rfl (List.mem_cons_self ..) hinit)
  have hfork := hinitialized.tail (.fork (.numbered 1) (i := .numbered 0) (g := graph) rfl rfl)
  have hcopy := hfork.tail (.request (.unary .cos ⟨3⟩) (i := .numbered 1) rfl)
  exact ⟨_, hcopy, rfl, List.mem_cons_self ..⟩

/-- In the copy the function of `x` is still made of the sine and the product that were there. -/
theorem call_inputs_copy :
    (functionAt (.initialized expressions tape)).call [.scalar ⟨3⟩] copy
      = .ok [.scalar ⟨5⟩, .column [⟨6⟩, ⟨5⟩]] copy := by
  obtain ⟨w, hw, hcopy, hfunction⟩ := exists_world
  exact ScalarWorld.call_inputs hw hfunction rfl hcopy (by decide)

end DampedSine

/-! ### Functions of other expressions -/

namespace ScalarHistory

/-- **Calls are composition.** A function that has a tape is made of any arguments of the shapes of its
inputs, in any graph that has its free symbols. The outputs are on the patterns of the function, and
their values are those of the tape at the values of the arguments, where free symbols have the values
that they are given. -/
theorem call_composes {gs : GraphId → Option ScalarGraph} {fs : List ScalarFunction}
    (hist : ScalarHistory gs fs) {f : ScalarFunction} (hf : f ∈ fs) {tape : ScalarTape}
    (htape : f.stage.tape? = some tape) {i : GraphId} {g : ScalarGraph} (hg : gs i = some g)
    (hfree : tape.freeSymbols = [] ∨ f.livesIn g = true) {arguments : List (SparseMatrix ScalarId)}
    (hshapes : List.Forall₂ (fun p m => m.shape = p.shape) f.inPatterns arguments)
    (hknown : ∀ e ∈ ScalarFunction.handlesOf arguments, g.Has e) :
    ∃ ms h, f.call arguments g = .ok ms h ∧ g.Grows h ∧
      ms.map SparseMatrix.pattern = f.outPatterns ∧
      ∀ (V : Type) [CommRing V] (A : Algebra Id V) (given : ScalarId → V), A.Simplifies →
        A.Exact h.folds → ms.map (fun m => m.values.map (h.evaluate A given))
          = Id.run (tape.replay A (argumentValues (g.evaluate A given) 0 f.inPatterns arguments)
            (tape.freeSymbols.map given) f.outSizes) := by
  have hfounded := hist.founded hg
  have hchecked := checkArguments_eq_ok_iff.mpr hshapes
  have hsymbols : ∀ e ∈ tape.freeSymbols, g.isSymbol e = true := by
    intro e he
    rcases hfree with hnone | hlives
    · rw [hnone] at he
      cases he
    · obtain ⟨_, -, -, -, hresides⟩ := hist.exists_resides hf htape
      exact ((hresides hg hlives).free he).1
  -- that the call succeeds does not depend on the algebra
  obtain ⟨ms, h, hrun, hgrow, hpatterns, -⟩ := ScalarFunction.yields_call
    Algebra.simplifies_trivial (fun _ => ⟨⟩) htape hchecked hknown hfree hsymbols hfounded
  refine ⟨ms, h, hrun, hgrow, hpatterns, fun V _ A given hA hexact => ?_⟩
  have hvalues := (ScalarFunction.yields_call hA given htape hchecked hknown hfree hsymbols).of_run
    hfounded hrun
  exact hvalues.2.2 hexact

end ScalarHistory

namespace DampedSine

/-- Whole numbers with squares for all functions, and products for quotients. -/
def squaring : Interpretation Int where
  literal v := if v = 0.0 then 0 else if v = -1.0 then -1 else 1
  function _ x := x * x
  quotient x y := x * y
  power x y := x ^ y.toNat
  literal_zero := by decide
  literal_one := by decide
  literal_negOne := by decide
  zero_quotient := zero_mul
  quotient_one := mul_one
  power_zero x := pow_zero x
  power_one x := pow_one x

/-- `x = 3` and `y = 5`. -/
def given (e : ScalarId) : Int := if e = ⟨3⟩ then 3 else if e = ⟨4⟩ then 5 else 0

/-- The copy with the sine of the sine, and its product with `y`. -/
def composed : ScalarGraph :=
  (ScalarRequest.binary .mul ⟨8⟩ ⟨4⟩).after ((ScalarRequest.unary .sin ⟨5⟩).after copy)

/-- The function of the sine: with 9 for `x` in the tape, and `y` for itself. -/
theorem call_composes_copy :
    (functionAt (.initialized expressions tape)).call [.scalar ⟨5⟩] copy
        = .ok [.scalar ⟨8⟩, .column [⟨9⟩, ⟨8⟩]] composed ∧
      [[composed.value squaring given ⟨8⟩],
        [composed.value squaring given ⟨9⟩, composed.value squaring given ⟨8⟩]] = [[81], [405, 81]] := by
  obtain ⟨w, hw, hcopy, hfunction⟩ := exists_world
  obtain ⟨fs, hsubset, hist⟩ := (ScalarWorld.kept_of_reachable hw).history
  have hrun : (functionAt (.initialized expressions tape)).call [.scalar ⟨5⟩] copy
      = .ok [.scalar ⟨8⟩, .column [⟨9⟩, ⟨8⟩]] composed := rfl
  have hshapes : List.Forall₂ (fun (p : Pattern) m => m.shape = p.shape) [.scalar]
      [SparseMatrix.scalar (⟨5⟩ : ScalarId)] := .cons rfl .nil
  have hknown : ∀ e ∈ ScalarFunction.handlesOf [.scalar ⟨5⟩], copy.Has e :=
    List.forall_mem_singleton.mpr (ScalarGraph.has_of_index_lt (by decide))
  obtain ⟨ms, h, hrun', -, -, hvalues⟩ := hist.call_composes (hsubset hfunction) rfl hcopy
    (.inr (by decide)) hshapes hknown
  rw [hrun] at hrun'
  cases hrun'
  have hcomposed := hvalues Int squaring.algebra given squaring.simplifies (fun f hf => nomatch hf)
  have hx : copy.evaluate squaring.algebra given ⟨3⟩ = 3 :=
    ScalarGraph.evaluate_of_node? (n := .symbol 0) rfl
  have hsine : copy.evaluate squaring.algebra given ⟨5⟩ = 9 := by
    rw [ScalarGraph.evaluate_of_node? (n := .unary .sin ⟨3⟩) rfl, ScalarNode.apply, hx]
    rfl
  have harguments : argumentValues (copy.evaluate squaring.algebra given) 0 [.scalar]
      [SparseMatrix.scalar ⟨5⟩] = [[9]] := by
    rw [← hsine]
    rfl
  have hreplay : Id.run (tape.replay squaring.algebra [[9]] [5] [1, 2]) = [[81], [405, 81]] := by
    decide
  have hreplayed := congrArg (fun xs => Id.run (tape.replay squaring.algebra xs [5] [1, 2])) harguments
  exact ⟨hrun, hcomposed.trans (hreplayed.trans hreplay)⟩

end DampedSine

end Fluxion
