import Fluxion.Proofs.Lists
import Fluxion.Proofs.Matrix.Meaning
import Fluxion.Proofs.Matrix.Sweeping
import Fluxion.Proofs.Scalar.Relabeling

/-!
# Routines that differ in their identities

An embedded function is known by its identity, so a graph may hold the same algorithm twice, under two
identities. The two are then different nodes, and their derivative functions live in different graphs.
But nothing that is computed depends on an identity: embedded on the same arguments, both stand for the
same matrices, and their derivative functions are the same but for the graph that they live in.

## Main definitions

* `Routine.Alike` — routines that differ in their identities only
* `FunctionObject.as` — a derivative function as it would be made under another identity
* `MatrixGraph.SameMatrices`, `MatrixGraph.SameOutcome` — the same results, in two graphs

## Main results

* `Routine.Alike.forwardDerivative`, `Routine.Alike.reverseDerivative` — **derivative functions are the
  same but for their graph**
* `MatrixBuilder.sameOutcome_callRoutine` — **embedded routines stand for the same matrices**
-/

namespace Fluxion

/-! ### Derivative functions -/

/-- The function that was made in the graph of one identity, as it would be made in that of another. -/
def FunctionObject.as (d : FunctionObject) (id : FunctionId) : FunctionObject :=
  .new id (d.function.under (.root (.standalone id)))

/-- Routines that differ in their identities only. -/
structure Routine.Alike (r s : Routine) : Prop where
  options : s.options = r.options
  inPatterns : s.inPatterns = r.inPatterns
  outPatterns : s.outPatterns = r.outPatterns
  tape : s.tape = r.tape

namespace Routine.Alike

variable {r s : Routine}

theorem inSizes (h : r.Alike s) : s.inSizes = r.inSizes := by
  rw [Routine.inSizes, Routine.inSizes, h.inPatterns]

theorem outSizes (h : r.Alike s) : s.outSizes = r.outSizes := by
  rw [Routine.outSizes, Routine.outSizes, h.outPatterns]

theorem outPattern (h : r.Alike s) (o : Nat) : s.outPattern o = r.outPattern o := by
  rw [Routine.outPattern, Routine.outPattern, h.outPatterns]

/-- What is made in a graph of its own depends on the identity only in that graph. -/
theorem standalone (h : r.Alike s) (id : FunctionId) (front : String)
    (build : ScalarBuilder (List (SparseMatrix ScalarId) × List (SparseMatrix ScalarId))) :
    s.standalone id front build = r.standalone id front build := by
  rw [Routine.standalone, Routine.standalone, h.options]

theorem assembled_symbolsLike (letter : String) (patterns : List Pattern) :
    ScalarBuilder.Assembled True False (Routine.symbolsLike letter patterns) :=
  .mapM (fun _ => .symbolMatrix _ _) _

theorem forwardFunction (h : r.Alike s) : s.forwardFunction
    = r.forwardFunction.map (·.under (.root (.standalone s.forwardId))) := by
  rw [Routine.forwardFunction, Routine.forwardFunction, h.inPatterns, h.outPatterns, h.tape,
    h.outSizes, h.standalone]
  refine r.standalone_under (ScalarBuilder.Assembled.blind (?_ : ScalarBuilder.Assembled True False _))
  exact (assembled_symbolsLike ..).bind fun _ => (assembled_symbolsLike ..).bind fun _ =>
    (ScalarTape.assembled_forward ..).bind fun _ => .pure _

theorem reverseFunction (h : r.Alike s) : s.reverseFunction
    = r.reverseFunction.map (·.under (.root (.standalone s.reverseId))) := by
  rw [Routine.reverseFunction, Routine.reverseFunction, h.inPatterns, h.outPatterns, h.tape,
    h.inSizes, h.outSizes, h.standalone]
  refine r.standalone_under (ScalarBuilder.Assembled.blind (?_ : ScalarBuilder.Assembled True False _))
  exact (assembled_symbolsLike ..).bind fun _ => (assembled_symbolsLike ..).bind fun _ =>
    (ScalarTape.assembled_reverse ..).bind fun _ => .pure _

/-- **Forward derivatives** are the same but for their graph. -/
theorem forwardDerivative (h : r.Alike s) :
    s.forwardDerivative = r.forwardDerivative.map (·.as s.forwardId) := by
  rw [Routine.forwardDerivative, Routine.forwardDerivative, h.forwardFunction]
  cases r.forwardFunction <;> rfl

/-- **Reverse derivatives** are the same but for their graph. -/
theorem reverseDerivative (h : r.Alike s) :
    s.reverseDerivative = r.reverseDerivative.map (·.as s.reverseId) := by
  rw [Routine.reverseDerivative, Routine.reverseDerivative, h.reverseFunction]
  cases r.reverseFunction <;> rfl

end Routine.Alike

/-! ### Embedding -/

namespace MatrixGraph

variable {g h k : MatrixGraph} {es es' : List MatrixId}

/-- Expressions of two graphs that have grown from `g` stand for the same matrices: they are on the
same patterns, and they have the same values over every algebra, whatever the symbols of `g` are. -/
structure SameMatrices (g h : MatrixGraph) (es : List MatrixId) (k : MatrixGraph)
    (es' : List MatrixId) : Prop where
  patterns : es.map h.pattern? = es'.map k.pattern?
  values : ∀ {V : Type} (A : Algebra Id V) (given : MatrixId → Option (List V)),
    (∀ e, g.isSymbol e = false → given e = none) →
      es.map (h.evaluate A given) = es'.map (k.evaluate A given)

/-- Two requests to `g` have the same outcome: they fail for the same reason, or both succeed with
expressions that stand for the same matrices. -/
def SameOutcome (g : MatrixGraph) :
    EStateM.Result Error MatrixGraph (List MatrixId) →
      EStateM.Result Error MatrixGraph (List MatrixId) → Prop
  | .ok es h, .ok es' k => g.SameMatrices h es k es'
  | .error d h, .error d' k => d = d' ∧ h = k
  | _, _ => False

end MatrixGraph

namespace MatrixBuilder

open MatrixGraph

variable {g h k k' : MatrixGraph} {r s : Routine} {arguments es es' : List MatrixId}

/-- The expression is an output of a routine on arguments. -/
def IsCall (r : Routine) (arguments : List MatrixId) (o : Nat) (e : MatrixId) (g : MatrixGraph) :
    Prop :=
  g.node? e = some (.call r arguments o) ∧ On (r.outPattern o) e g

theorem yields_calls (harguments : arguments.map g.pattern? = r.inPatterns.map some) :
    Yields ((List.range r.outPatterns.length).mapM (callOutput r arguments)) g fun es h =>
      List.Forall₂ (IsCall r arguments · · h) (List.range r.outPatterns.length) es := by
  refine .mapM (S := IsCall r arguments)
    (fun o e h k hgrow he => ⟨hgrow.node? he.1, he.2.grow hgrow⟩) fun o ho h hgh => ?_
  refine yields_intern (.call (MatrixNode.map_pattern?_grow hgh.pattern? harguments) ?_)
  have hlt := List.mem_range.mp ho
  rw [Routine.outPattern, List.getD_eq_getElem _ _ hlt, List.getElem?_eq_getElem hlt]

/-- The value of a call, in a graph that has grown from one that has the arguments. It does not depend
on the identity of the routine. -/
theorem IsCall.evaluate_eq {V : Type} {A : Algebra Id V} {given : MatrixId → Option (List V)}
    {o : Nat} {e : MatrixId} (he : IsCall r arguments o e h)
    (hgiven : ∀ e, g.isSymbol e = false → given e = none) (hgrow : g.Grows h)
    (harguments : ∀ a ∈ arguments, a.index < g.size) :
    h.evaluate A given e
      = (Id.run (r.tape.replay A (arguments.map (g.evaluate A given)) [] r.outSizes)).getD o [] := by
  have hnone : given e = none := by
    refine hgiven e ?_
    rw [MatrixGraph.isSymbol]
    cases hn : g.node? e with
    | none => rfl
    | some n =>
      obtain rfl := Option.some.inj ((hgrow.node? hn).symm.trans he.1)
      rfl
  have hvalues : arguments.map (h.evaluate A given) = arguments.map (g.evaluate A given) :=
    List.map_congr_left fun a ha => evaluate_of_grows hgrow (harguments a ha)
  rw [evaluate_of_node? hnone he.1, MatrixNode.apply, hvalues]

/-- Calls of routines that differ in their identities, on the same arguments. -/
theorem sameMatrices_calls (hsame : r.Alike s) (hgrow : g.Grows h)
    (harguments : arguments.map h.pattern? = r.inPatterns.map some) (hk : h.Grows k)
    (hk' : h.Grows k') {os : List Nat} (hes : List.Forall₂ (IsCall r arguments · · k) os es)
    (hes' : List.Forall₂ (IsCall s arguments · · k') os es') : g.SameMatrices k es k' es' where
  patterns := by
    have hleft : os.map (some ∘ r.outPattern) = es.map k.pattern? :=
      map_eq_map_of_forall₂ hes fun _ _ _ he => he.2.symm
    have hright : os.map (some ∘ r.outPattern) = es'.map k'.pattern? :=
      map_eq_map_of_forall₂ hes' fun o _ _ he => by rw [he.2, hsame.outPattern]; rfl
    exact hleft.symm.trans hright
  values := by
    intro V A given hgiven
    have hsymbols : ∀ e, h.isSymbol e = false → given e = none := by
      intro e he
      refine hgiven e ?_
      rw [MatrixGraph.isSymbol] at he ⊢
      cases hn : g.node? e with
      | none => rfl
      | some n => rwa [hgrow.node? hn] at he
    have hbefore : ∀ a ∈ arguments, a.index < h.size := by
      intro a ha
      obtain ⟨p, hp⟩ := MatrixTape.exists_pattern?_of_map harguments ha
      exact index_lt_of_pattern? hp
    let value (o : Nat) : List V :=
      (Id.run (r.tape.replay A (arguments.map (h.evaluate A given)) [] r.outSizes)).getD o []
    have hleft : os.map value = es.map (k.evaluate A given) :=
      map_eq_map_of_forall₂ hes fun o _ _ he => (he.evaluate_eq hsymbols hk hbefore).symm
    have hright : os.map value = es'.map (k'.evaluate A given) :=
      map_eq_map_of_forall₂ hes' fun o _ _ he => by
        rw [he.evaluate_eq hsymbols hk' hbefore, hsame.tape, hsame.outSizes]
    exact hleft.symm.trans hright

/-- Requests that begin alike have the same outcome if they have it from there on. -/
theorem sameOutcome_bind {α : Type} {x : MatrixBuilder α} {Q : α → MatrixGraph → Prop}
    {f f' : α → MatrixBuilder (List MatrixId)} (hx : Keeps x g Q) (hg : g.WellTyped)
    (hf : ∀ a h, g.Grows h → h.WellTyped → Q a h → g.SameOutcome (f a h) (f' a h)) :
    g.SameOutcome ((x >>= f) g) ((x >>= f') g) := by
  simp only [Bind.bind, EStateM.bind]
  cases hrun : x g with
  | error d h => exact ⟨rfl, rfl⟩
  | ok a h =>
    obtain ⟨hgrow, hh, ha⟩ := hx.of_run hg hrun
    exact hf a h hgrow hh ha

/-- **Embedded routines stand for the same matrices** if they differ in their identities only. -/
theorem sameOutcome_callRoutine (hsame : r.Alike s) (hg : g.WellTyped)
    (arguments : List MatrixId) :
    g.SameOutcome (callRoutine r arguments g) (callRoutine s arguments g) := by
  rw [callRoutine, callRoutine, hsame.inPatterns, hsame.outPatterns]
  dsimp only
  split
  · exact ⟨rfl, rfl⟩
  · rename_i hlength
    refine sameOutcome_bind (keeps_callArguments (not_not.mp hlength)) hg
      fun moved h hgrow hh hpatterns => ?_
    obtain ⟨es, k, hrun, hk, -, hes⟩ := yields_calls hpatterns hh
    obtain ⟨es', k', hrun', hk', -, hes'⟩ :=
      yields_calls (r := s) (hsame.inPatterns ▸ hpatterns) hh
    rw [hsame.outPatterns] at hrun' hes'
    rw [hrun, hrun']
    exact sameMatrices_calls hsame hgrow hpatterns hk hk' hes hes'

end MatrixBuilder

end Fluxion
