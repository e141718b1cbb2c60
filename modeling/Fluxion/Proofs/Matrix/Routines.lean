import Fluxion.Function.Routine
import Fluxion.Proofs.Lists

/-!
# Derivative functions of routines

A sweep over a matrix tape embeds derivative functions of the routines that it meets. It never looks
at their patterns, but relies on them: the forward derivative takes the inputs twice and has the
outputs of the routine, and the reverse derivative takes inputs and outputs and has the inputs.

## Main definitions

* `ScalarBuilder.Returns` — what is known of a result without looking at graphs

## Main results

* `Routine.patterns_forwardDerivative`, `Routine.patterns_reverseDerivative` — **the patterns of
  derivative functions**
-/

namespace Fluxion

namespace ScalarBuilder

variable {α β : Type}

/-- `Q` holds of the result, if there is one. -/
def Returns (x : ScalarBuilder α) (Q : α → Prop) : Prop := ∀ g a h, x g = .ok a h → Q a

theorem returns_pure {a : α} {Q : α → Prop} (ha : Q a) : Returns (pure a) Q := by
  intro g b h hrun
  cases hrun
  exact ha

theorem returns_anything (x : ScalarBuilder α) : Returns x fun _ => True :=
  fun _ _ _ _ => trivial

theorem Returns.bind {x : ScalarBuilder α} {f : α → ScalarBuilder β} {Q : α → Prop} {R : β → Prop}
    (hx : Returns x Q) (hf : ∀ a, Q a → Returns (f a) R) : Returns (x >>= f) R := by
  intro g b k hrun
  simp only [Bind.bind, EStateM.bind] at hrun
  split at hrun
  · rename_i a h hxg
    exact hf a (hx g a h hxg) h b k hrun
  · contradiction

theorem Returns.mapM {S : α → β → Prop} {f : α → ScalarBuilder β} {as : List α}
    (step : ∀ a, Returns (f a) (S a)) : Returns (as.mapM f) (List.Forall₂ S as) := by
  induction as with
  | nil =>
    rw [List.mapM_nil]
    exact returns_pure .nil
  | cons a rest ih =>
    rw [List.mapM_cons]
    exact (step a).bind fun b hb => ih.bind fun bs hbs => returns_pure (.cons hb hbs)

theorem returns_symbolMatrix (name : String) (p : Pattern) :
    Returns (symbolMatrix name p) fun m => m.pattern = p :=
  (returns_anything _).bind fun _ _ => returns_pure rfl

end ScalarBuilder

theorem ScalarFunction.patterns_wrap {V : Type} (patterns : List Pattern) (values : Bundle V)
    (zero : V) : (wrap patterns values zero).map SparseMatrix.pattern = patterns := by
  rw [wrap, List.map_map]
  exact (List.map_congr_left fun _ _ => rfl).trans (List.zipIdx_map_fst 0 patterns)

namespace ScalarFunction

variable {g : ScalarGraph} {f f' : ScalarFunction}

theorem patterns_init (h : f.init g = .ok f') :
    f'.inPatterns = f.inPatterns ∧ f'.outPatterns = f.outPatterns := by
  rw [init] at h
  cases hcheck : f.checkGraph g with
  | error e => simp [hcheck, bind, Except.bind] at h
  | ok _ =>
    simp only [hcheck, bind, Except.bind] at h
    split at h
    · split at h
      · contradiction
      · cases h
        exact ⟨rfl, rfl⟩
    · cases h
      exact ⟨rfl, rfl⟩
    · cases h
      exact ⟨rfl, rfl⟩

theorem patterns_make {inputs outputs : List (SparseMatrix ScalarId)} {options : FunctionOptions}
    (h : make g inputs outputs options = .ok f) :
    f.inPatterns = inputs.map SparseMatrix.pattern ∧
      f.outPatterns = outputs.map SparseMatrix.pattern := by
  rw [make] at h
  cases hdeclare : declare g inputs outputs options with
  | error e => simp [hdeclare, bind, Except.bind] at h
  | ok declared =>
    simp only [hdeclare, bind, Except.bind] at h
    obtain ⟨hin, hout⟩ := patterns_init h
    rw [declare] at hdeclare
    split at hdeclare
    · contradiction
    · cases hdeclare
      exact ⟨hin, hout⟩

end ScalarFunction

namespace Routine

open ScalarBuilder

variable {r s : Routine} {d : FunctionObject}

theorem returns_symbolsLike (letter : String) (patterns : List Pattern) :
    Returns (symbolsLike letter patterns) fun ms => ms.map SparseMatrix.pattern = patterns := by
  have hmap : Returns (symbolsLike letter patterns)
      (List.Forall₂ (fun entry m => m.pattern = entry.1) patterns.zipIdx) :=
    Returns.mapM fun _ => returns_symbolMatrix _ _
  intro g ms h hrun
  have hms := hmap g ms h hrun
  have heq : ms.map SparseMatrix.pattern = patterns.zipIdx.map Prod.fst :=
    map_eq_map_of_forall₂ hms.flip fun _ _ _ hm => hm
  rwa [List.zipIdx_map_fst] at heq

/-- A function in a graph of its own was made of what was built there, and keeps the graph. -/
theorem standalone_eq_ok {id : FunctionId} {front : String} {f : ScalarFunction}
    {build : ScalarBuilder (List (SparseMatrix ScalarId) × List (SparseMatrix ScalarId))}
    (h : r.standalone id front build = .ok f) :
    ∃ inputs outputs g k, build (.new (.standalone id)) = .ok (inputs, outputs) g ∧
      ScalarFunction.make g inputs outputs (r.options.derived front) = .ok k ∧ f = k.settle g := by
  rw [standalone] at h
  split at h
  · contradiction
  · rename_i inputs outputs g hrun
    cases hmake : ScalarFunction.make g inputs outputs (r.options.derived front) with
    | error e => simp [hmake, bind, Except.bind] at h
    | ok k =>
      simp only [hmake, bind, Except.bind, pure, Except.pure, Except.ok.injEq] at h
      exact ⟨inputs, outputs, g, k, hrun, hmake, h.symm⟩

theorem function_forwardDerivative (hd : r.forwardDerivative = .ok d) :
    r.forwardFunction = .ok d.function := by
  cases hf : r.forwardFunction with
  | error e => simp [forwardDerivative, hf, bind, Except.bind] at hd
  | ok f =>
    simp only [forwardDerivative, hf, bind, Except.bind, pure, Except.pure, Except.ok.injEq] at hd
    rw [← hd]
    rfl

theorem function_reverseDerivative (hd : r.reverseDerivative = .ok d) :
    r.reverseFunction = .ok d.function := by
  cases hf : r.reverseFunction with
  | error e => simp [reverseDerivative, hf, bind, Except.bind] at hd
  | ok f =>
    simp only [reverseDerivative, hf, bind, Except.bind, pure, Except.pure, Except.ok.injEq] at hd
    rw [← hd]
    rfl

theorem patterns_standalone {id : FunctionId} {front : String} {ins outs : List Pattern}
    {build : ScalarBuilder (List (SparseMatrix ScalarId) × List (SparseMatrix ScalarId))}
    (hbuild : Returns build fun ms =>
      ms.1.map SparseMatrix.pattern = ins ∧ ms.2.map SparseMatrix.pattern = outs)
    {f : ScalarFunction} (h : r.standalone id front build = .ok f) :
    f.inPatterns = ins ∧ f.outPatterns = outs := by
  obtain ⟨inputs, outputs, g, k, hrun, hmake, rfl⟩ := standalone_eq_ok h
  obtain ⟨hins, houts⟩ := hbuild _ _ _ hrun
  obtain ⟨hin, hout⟩ := ScalarFunction.patterns_make hmake
  have hsettle : (k.settle g).inPatterns = k.inPatterns ∧
      (k.settle g).outPatterns = k.outPatterns := by
    rw [ScalarFunction.settle]
    split <;> exact ⟨rfl, rfl⟩
  exact ⟨hsettle.1.trans (hin.trans hins), hsettle.2.trans (hout.trans houts)⟩

theorem patterns_routine (h : d.routine = .ok s) :
    s.inPatterns = d.function.inPatterns ∧ s.outPatterns = d.function.outPatterns := by
  rw [FunctionObject.routine] at h
  cases htape : d.function.tape with
  | error e => simp [htape, bind, Except.bind] at h
  | ok tape =>
    simp only [htape, bind, Except.bind] at h
    split at h
    · cases h
      exact ⟨rfl, rfl⟩
    · contradiction

/-- **The forward derivative** takes inputs and directions, and has outputs like the routine. -/
theorem patterns_forwardDerivative (hd : r.forwardDerivative = .ok d) (hs : d.routine = .ok s) :
    s.inPatterns = r.inPatterns ++ r.inPatterns ∧ s.outPatterns = r.outPatterns := by
  obtain ⟨hin, hout⟩ := patterns_routine hs
  rw [hin, hout]
  refine patterns_standalone ?_ (function_forwardDerivative hd)
  refine (returns_symbolsLike "x" r.inPatterns).bind fun xs hxs => ?_
  refine (returns_symbolsLike "t" r.inPatterns).bind fun ts hts => ?_
  refine (returns_anything _).bind fun _ _ => returns_pure ⟨?_, ?_⟩
  · rw [List.map_append, hxs, hts]
  · exact ScalarFunction.patterns_wrap _ _ _

/-- **The reverse derivative** takes inputs and weights, and has outputs like the inputs. -/
theorem patterns_reverseDerivative (hd : r.reverseDerivative = .ok d) (hs : d.routine = .ok s) :
    s.inPatterns = r.inPatterns ++ r.outPatterns ∧ s.outPatterns = r.inPatterns := by
  obtain ⟨hin, hout⟩ := patterns_routine hs
  rw [hin, hout]
  refine patterns_standalone ?_ (function_reverseDerivative hd)
  refine (returns_symbolsLike "x" r.inPatterns).bind fun xs hxs => ?_
  refine (returns_symbolsLike "a" r.outPatterns).bind fun ws hws => ?_
  refine (returns_anything _).bind fun _ _ => returns_pure ⟨?_, ?_⟩
  · rw [List.map_append, hxs, hws]
  · exact ScalarFunction.patterns_wrap _ _ _

end Routine

end Fluxion
