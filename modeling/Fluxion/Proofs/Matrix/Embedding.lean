import Fluxion.Function.Derivative.Matrix
import Fluxion.Function.Lifting
import Fluxion.Proofs.Matrix.Direct
import Fluxion.Proofs.Matrix.Building
import Fluxion.Proofs.Matrix.Routines

/-!
# Where embedded routines come from

A routine can be embedded in a matrix graph by a call, and sweeps embed the derivative functions of
routines that they meet. The latter are made in graphs of their own, so they were compiled from
expressions whatever the routine is. No other request adds a call, so if all functions that are called
were compiled from expressions, all embedded routines were.

## Main definitions

* `MatrixGraph.RoutinesCompiled` — all embedded routines were compiled from expressions
* `MatrixBuilder.KeepsCompiled` — requests that leave it so

## Main results

* `Routine.isCompiled_forwardDerivative`, `Routine.isCompiled_reverseDerivative` — derivative functions
* `MatrixFunction.keepsCompiled_jacobian`, `MatrixFunction.keepsCompiled_liftingFunctions` and others —
  **requests embed compiled routines only**
-/

namespace Fluxion

/-! ### Functions that were made -/

namespace ScalarFunction

variable {g : ScalarGraph} {f : ScalarFunction}

/-- The function has the patterns of the expressions that it was declared with, and its tape, if there
is one, was compiled from them. -/
def IsCompiled (f : ScalarFunction) : Prop :=
  ∃ inputs outputs : List (SparseMatrix ScalarId),
    f.inPatterns = inputs.map SparseMatrix.pattern ∧
    f.outPatterns = outputs.map SparseMatrix.pattern ∧
    (∀ e, f.stage = .declared e → e.inputs = inputs ∧ e.outputs = outputs) ∧
    ∀ tape, f.stage.tape? = some tape →
      ∃ origin, ScalarTape.compile origin inputs outputs = .ok tape

theorem isCompiled_declare {inputs outputs : List (SparseMatrix ScalarId)}
    {options : FunctionOptions} (h : declare g inputs outputs options = .ok f) : f.IsCompiled := by
  rw [declare] at h
  split at h
  · contradiction
  · obtain rfl := Except.ok.inj h
    refine ⟨inputs, outputs, rfl, rfl, fun e he => ?_, fun tape ht => by contradiction⟩
    obtain rfl := Stage.declared.inj he
    exact ⟨rfl, rfl⟩

theorem isCompiled_init {f' : ScalarFunction} (hf : f.IsCompiled) (h : f.init g = .ok f') :
    f'.IsCompiled := by
  obtain ⟨inputs, outputs, hin, hout, hdeclared, -⟩ := id hf
  rw [init] at h
  cases hcheck : f.checkGraph g with
  | error e => simp [hcheck, bind, Except.bind] at h
  | ok _ =>
    simp only [hcheck, bind, Except.bind, pure, Except.pure] at h
    cases hs : f.stage with
    | declared e =>
      obtain ⟨rfl, rfl⟩ := hdeclared e hs
      simp only [hs] at h
      cases hcompile : ScalarTape.compile g e.inputs e.outputs with
      | error _ => simp [hcompile] at h
      | ok tape =>
        rw [hcompile] at h
        obtain rfl := Except.ok.inj h
        refine ⟨e.inputs, e.outputs, hin, hout, fun _ he => by contradiction, fun t ht => ?_⟩
        obtain rfl := Option.some.inj ht
        exact ⟨g, hcompile⟩
    | initialized e tape =>
      simp only [hs] at h
      exact Except.ok.inj h ▸ hf
    | cleared tape =>
      simp only [hs] at h
      exact Except.ok.inj h ▸ hf

theorem isCompiled_make {inputs outputs : List (SparseMatrix ScalarId)} {options : FunctionOptions}
    (h : make g inputs outputs options = .ok f) : f.IsCompiled := by
  rw [make] at h
  cases hdeclare : declare g inputs outputs options with
  | error e => simp [hdeclare, bind, Except.bind] at h
  | ok declared =>
    simp only [hdeclare, bind, Except.bind] at h
    exact isCompiled_init (isCompiled_declare hdeclare) h

/-- Without a new tape, and without new expressions, a function is what it was. -/
theorem IsCompiled.of_stage {f' : ScalarFunction} (hf : f.IsCompiled)
    (hin : f'.inPatterns = f.inPatterns) (hout : f'.outPatterns = f.outPatterns)
    (hdeclared : ∀ e', f'.stage = .declared e' →
      ∃ e, f.stage = .declared e ∧ e'.inputs = e.inputs ∧ e'.outputs = e.outputs)
    (htape : ∀ tape, f'.stage.tape? = some tape → f.stage.tape? = some tape) : f'.IsCompiled := by
  obtain ⟨inputs, outputs, hins, houts, hexpressions, hcompiled⟩ := hf
  refine ⟨inputs, outputs, hin.trans hins, hout.trans houts, fun e' he' => ?_, fun tape ht =>
    hcompiled tape (htape tape ht)⟩
  obtain ⟨e, he, hi, ho⟩ := hdeclared e' he'
  exact ⟨hi.trans (hexpressions e he).1, ho.trans (hexpressions e he).2⟩

theorem isCompiled_settle (hf : f.IsCompiled) : (f.settle g).IsCompiled := by
  rw [settle]
  split
  · rename_i e hs
    refine hf.of_stage rfl rfl (fun e' he' => ⟨e, hs, ?_⟩) fun _ ht => by contradiction
    obtain rfl := Stage.declared.inj he'
    exact ⟨rfl, rfl⟩
  · rename_i e tape hs
    exact hf.of_stage rfl rfl (fun _ he' => by contradiction) fun t ht => by rw [hs]; exact ht
  · exact hf

theorem isCompiled_clear {f' : ScalarFunction} (hf : f.IsCompiled) (h : f.clear = .ok f') :
    f'.IsCompiled := by
  rw [clear, tape] at h
  cases ht : f.stage.tape? with
  | none => simp [ht, bind, Except.bind] at h
  | some tape =>
    simp only [ht, bind, Except.bind, pure, Except.pure, Except.ok.injEq] at h
    subst h
    exact hf.of_stage rfl rfl (fun _ he' => by contradiction) fun t h => ht.trans h

end ScalarFunction

/-! ### Derivative functions -/

theorem FunctionObject.isCompiled_routine {o : FunctionObject} {r : Routine}
    (ho : o.function.IsCompiled) (h : o.routine = .ok r) : r.IsCompiled := by
  obtain ⟨inputs, outputs, hin, hout, -, hcompiled⟩ := ho
  rw [routine, ScalarFunction.tape] at h
  cases ht : o.function.stage.tape? with
  | none => simp [ht, bind, Except.bind] at h
  | some tape =>
    obtain ⟨origin, hcompile⟩ := hcompiled tape ht
    simp only [ht, bind, Except.bind] at h
    split at h
    · obtain rfl := Except.ok.inj h
      exact ⟨origin, inputs, outputs, hcompile, hin, hout⟩
    · contradiction

namespace Routine

variable {r s : Routine} {d : FunctionObject}

theorem isCompiled_standalone {id : FunctionId} {front : String}
    {build : ScalarBuilder (List (SparseMatrix ScalarId) × List (SparseMatrix ScalarId))}
    {f : ScalarFunction} (h : r.standalone id front build = .ok f) : f.IsCompiled := by
  obtain ⟨_, _, _, _, -, hmake, rfl⟩ := standalone_eq_ok h
  exact ScalarFunction.isCompiled_settle (ScalarFunction.isCompiled_make hmake)

/-- **The forward derivative** was compiled in a graph of its own, whatever the routine is. -/
theorem isCompiled_forwardDerivative (hd : r.forwardDerivative = .ok d) : d.function.IsCompiled :=
  isCompiled_standalone (function_forwardDerivative hd)

/-- **The reverse derivative** was compiled in a graph of its own, whatever the routine is. -/
theorem isCompiled_reverseDerivative (hd : r.reverseDerivative = .ok d) : d.function.IsCompiled :=
  isCompiled_standalone (function_reverseDerivative hd)

end Routine

/-! ### Requests -/

/-- The routine that a node embeds, if it embeds one, was compiled from expressions. -/
def MatrixNode.RoutineCompiled (n : MatrixNode) : Prop :=
  ∀ r arguments o, n = .call r arguments o → r.IsCompiled

theorem MatrixNode.RoutineCompiled.mapOperands {n : MatrixNode} (hn : n.RoutineCompiled)
    (replace : MatrixId → MatrixId) : (n.mapOperands replace).RoutineCompiled := by
  intro r arguments o h
  cases n with
  | call s as k =>
    obtain ⟨rfl, -, -⟩ := MatrixNode.call.inj h
    exact hn s as k rfl
  | _ => contradiction

/-- All embedded routines were compiled from expressions. -/
def MatrixGraph.RoutinesCompiled (g : MatrixGraph) : Prop :=
  ∀ e r arguments o, g.node? e = some (.call r arguments o) → r.IsCompiled

namespace MatrixBuilder

variable {α β σ : Type} {g h : MatrixGraph}

/-- The request leaves a graph whose routines were compiled if it is given one, whatever the
outcome. -/
def KeepsCompiled (x : MatrixBuilder α) : Prop :=
  ∀ g : MatrixGraph, g.RoutinesCompiled →
    match x g with
    | .ok _ h | .error _ h => h.RoutinesCompiled

theorem KeepsCompiled.keeps {x : MatrixBuilder α} (hx : KeepsCompiled x) (hg : g.RoutinesCompiled)
    {Q : α → MatrixGraph → Prop} (hQ : Keeps x g Q) :
    Keeps x g fun a h => h.RoutinesCompiled ∧ Q a h := by
  intro htyped
  have hcompiled := hx g hg
  have hkept := hQ htyped
  split at hkept
  · rename_i a h hrun
    rw [hrun] at hcompiled
    exact ⟨hkept.1, hkept.2.1, hcompiled, hkept.2.2⟩
  · exact hkept

theorem keepsCompiled_pure (a : α) : KeepsCompiled (pure a) := fun _ hg => hg

theorem keepsCompiled_throw (e : Error) : KeepsCompiled (throw e : MatrixBuilder α) := fun _ hg => hg

theorem keepsCompiled_ofExcept (x : Except Error α) : KeepsCompiled (ofExcept x) := by
  cases x with
  | ok a => exact keepsCompiled_pure a
  | error e => exact keepsCompiled_throw e

theorem keepsCompiled_get : KeepsCompiled (get : MatrixBuilder MatrixGraph) := fun _ hg => hg

/-- Requests one after another. -/
theorem KeepsCompiled.bind {x : MatrixBuilder α} {f : α → MatrixBuilder β} (hx : KeepsCompiled x)
    (hf : ∀ a, KeepsCompiled (f a)) : KeepsCompiled (x >>= f) := by
  intro g hg
  have hrun := hx g hg
  simp only [Bind.bind, EStateM.bind]
  cases hxg : x g with
  | ok a h =>
    rw [hxg] at hrun
    exact hf a h hrun
  | error e h =>
    rw [hxg] at hrun
    exact hrun

theorem keepsCompiled_patternOf (e : MatrixId) : KeepsCompiled (patternOf e) := by
  refine keepsCompiled_get.bind fun g => ?_
  split
  · exact keepsCompiled_pure _
  · exact keepsCompiled_throw _

/-- A node that is looked up embeds no other routine. -/
theorem keepsCompiled_nodeOf_bind {e : MatrixId} {f : MatrixNode → MatrixBuilder β}
    (hf : ∀ n : MatrixNode, n.RoutineCompiled → KeepsCompiled (f n)) :
    KeepsCompiled (nodeOf e >>= f) := by
  intro g hg
  cases hn : g.node? e with
  | some n =>
    simp only [Bind.bind, EStateM.bind, nodeOf_of_some hn]
    exact hf n (fun r arguments o h => hg e r arguments o (h ▸ hn)) g hg
  | none =>
    simp only [Bind.bind, EStateM.bind, nodeOf_of_none hn]
    exact hg

theorem keepsCompiled_mapM {f : α → MatrixBuilder β} (hf : ∀ a, KeepsCompiled (f a)) (as : List α) :
    KeepsCompiled (as.mapM f) := by
  induction as with
  | nil =>
    rw [List.mapM_nil]
    exact keepsCompiled_pure _
  | cons a rest ih =>
    rw [List.mapM_cons]
    exact (hf a).bind fun b => ih.bind fun bs => keepsCompiled_pure _

theorem keepsCompiled_foldlM {f : σ → α → MatrixBuilder σ} (hf : ∀ s a, KeepsCompiled (f s a))
    (as : List α) (s : σ) : KeepsCompiled (as.foldlM f s) := by
  induction as generalizing s with
  | nil => exact keepsCompiled_pure s
  | cons a rest ih =>
    rw [List.foldlM_cons]
    exact (hf s a).bind ih

theorem keepsCompiled_inTurn {f : σ → α → MatrixBuilder (σ × β)} (hf : ∀ s a, KeepsCompiled (f s a))
    (s : σ) (as : List α) : KeepsCompiled (Fluxion.inTurn f s as) := by
  induction as generalizing s with
  | nil => exact keepsCompiled_pure _
  | cons a rest ih =>
    exact (hf s a).bind fun r => (ih r.1).bind fun bs => keepsCompiled_pure _

theorem keepsCompiled_onDemand {made : Option α} {make : MatrixBuilder α}
    (hmake : KeepsCompiled make) : KeepsCompiled (Fluxion.onDemand made make) := by
  cases made with
  | some a => exact keepsCompiled_pure a
  | none => exact hmake

/-- Requests that leave the nodes alone. -/
theorem keepsCompiled_modify {f : MatrixGraph → MatrixGraph} (hf : ∀ g, (f g).entries = g.entries) :
    KeepsCompiled (modify f) := by
  intro g hg e r arguments o hn
  refine hg e r arguments o ?_
  rw [← hn, MatrixGraph.node?, MatrixGraph.node?, hf]

/-- **Adding a node** is all right if its routine was compiled. -/
theorem keepsCompiled_intern {n : MatrixNode} (hn : n.RoutineCompiled) (p : Pattern) :
    KeepsCompiled (intern n p) := by
  intro g hg
  by_cases hk : ∀ a ∈ n.operands, a.index < g.entries.size
  · rw [intern, dif_pos hk]
    show (g.intern ⟨n, p⟩ hk).2.RoutinesCompiled
    rw [MatrixGraph.intern]
    split
    · exact hg
    · intro e r arguments o he
      rw [MatrixGraph.node?, MatrixGraph.entry_push] at he
      split at he
      · exact hn r arguments o (Option.some.inj he)
      · exact hg e r arguments o he
  · rw [intern, dif_neg hk]
    exact hg

/-! ### Builders -/

theorem keepsCompiled_symbol (name : String) (p : Pattern) : KeepsCompiled (symbol name p) := by
  refine keepsCompiled_get.bind fun g => ?_
  refine KeepsCompiled.bind (keepsCompiled_modify fun _ => rfl) fun _ => ?_
  exact keepsCompiled_intern (fun _ _ _ h => by contradiction) p

theorem keepsCompiled_rememberFolds (folds : List Fold) : KeepsCompiled (rememberFolds folds) :=
  keepsCompiled_modify fun _ => rfl

theorem keepsCompiled_constant (m : SparseMatrix Binary64) : KeepsCompiled (constant m) :=
  keepsCompiled_intern (fun _ _ _ h => by contradiction) _

theorem keepsCompiled_fill (p : Pattern) (v : Binary64) : KeepsCompiled (fill p v) :=
  keepsCompiled_constant _

theorem keepsCompiled_gather (arguments : List MatrixId) (map : GatherMap) (p : Pattern) :
    KeepsCompiled (gather arguments map p) := by
  have hintern : ∀ used renumbered, KeepsCompiled (intern (.gather used renumbered p) p) :=
    fun _ _ => keepsCompiled_intern (fun _ _ _ h => by contradiction) p
  rw [gather]
  split
  · exact keepsCompiled_fill p 0.0
  · dsimp only
    split
    · refine (keepsCompiled_patternOf _).bind fun q => ?_
      split
      · exact keepsCompiled_pure _
      · exact hintern _ _
    · exact hintern _ _

theorem keepsCompiled_scatter (a : MatrixId) (map : ScatterMap) (p : Pattern) :
    KeepsCompiled (scatter a map p) := by
  rw [scatter]
  split
  · exact keepsCompiled_fill p 0.0
  · exact keepsCompiled_intern (fun _ _ _ h => by contradiction) p

theorem keepsCompiled_project (a : MatrixId) (p : Pattern) : KeepsCompiled (project a p) := by
  refine (keepsCompiled_patternOf a).bind fun q => ?_
  split
  · exact keepsCompiled_throw _
  · split
    · exact keepsCompiled_pure _
    · exact keepsCompiled_gather _ _ _

theorem keepsCompiled_densify (a : MatrixId) : KeepsCompiled (densify a) :=
  (keepsCompiled_patternOf a).bind fun _ => (keepsCompiled_ofExcept _).bind fun _ =>
    keepsCompiled_gather _ _ _

theorem keepsCompiled_broadcast (a : MatrixId) (p : Pattern) : KeepsCompiled (broadcast a p) := by
  refine (keepsCompiled_patternOf a).bind fun q => ?_
  split
  · exact keepsCompiled_project a p
  · split
    · exact (keepsCompiled_densify a).bind fun _ => keepsCompiled_gather _ _ _
    · exact keepsCompiled_throw _

theorem keepsCompiled_transpose (a : MatrixId) : KeepsCompiled (transpose a) :=
  (keepsCompiled_patternOf a).bind fun _ => (keepsCompiled_ofExcept _).bind fun _ =>
    keepsCompiled_gather _ _ _

theorem keepsCompiled_vertcat (parts : List MatrixId) : KeepsCompiled (vertcat parts) := by
  refine (keepsCompiled_mapM keepsCompiled_patternOf parts).bind fun patterns => ?_
  split
  · exact keepsCompiled_fill _ _
  · split
    · exact keepsCompiled_throw _
    · exact (keepsCompiled_ofExcept _).bind fun _ => keepsCompiled_gather _ _ _

theorem keepsCompiled_horzcat (parts : List MatrixId) : KeepsCompiled (horzcat parts) := by
  refine (keepsCompiled_mapM keepsCompiled_patternOf parts).bind fun patterns => ?_
  split
  · exact keepsCompiled_fill _ _
  · split
    · exact keepsCompiled_throw _
    · exact (keepsCompiled_ofExcept _).bind fun _ => keepsCompiled_gather _ _ _

theorem keepsCompiled_element (a : MatrixId) (r c : Nat) : KeepsCompiled (element a r c) := by
  refine (keepsCompiled_patternOf a).bind fun q => ?_
  split
  · exact keepsCompiled_throw _
  · exact keepsCompiled_gather _ _ _

theorem keepsCompiled_nonzeros (a : MatrixId) (numbers : List Nat) :
    KeepsCompiled (nonzeros a numbers) := by
  refine (keepsCompiled_patternOf a).bind fun q => ?_
  dsimp only
  split
  · exact keepsCompiled_throw _
  · exact keepsCompiled_gather _ _ _

theorem keepsCompiled_sum (a : MatrixId) : KeepsCompiled (sum a) :=
  (keepsCompiled_patternOf a).bind fun _ => keepsCompiled_scatter _ _ _

theorem keepsCompiled_unary (op : UnaryOp) (a : MatrixId) : KeepsCompiled (unary op a) := by
  have hstored : ∀ a, KeepsCompiled (unaryStored op a) := by
    intro a
    refine (keepsCompiled_patternOf a).bind fun p => keepsCompiled_get.bind fun g => ?_
    split
    · exact (keepsCompiled_rememberFolds _).bind fun _ => keepsCompiled_constant _
    · exact keepsCompiled_intern (fun _ _ _ h => by contradiction) p
  rw [unary_eq]
  split
  · exact hstored a
  · exact (keepsCompiled_densify a).bind hstored

theorem keepsCompiled_operandFor (e : MatrixId) (own other p : Pattern) :
    KeepsCompiled (operandFor e own other p) := by
  rw [operandFor]
  split
  · exact keepsCompiled_project e p
  · exact keepsCompiled_densify e

theorem keepsCompiled_binary (op : BinaryOp) (a b : MatrixId) : KeepsCompiled (binary op a b) := by
  refine (keepsCompiled_patternOf a).bind fun pa => (keepsCompiled_patternOf b).bind fun pb => ?_
  refine (keepsCompiled_ofExcept _).bind fun p => (keepsCompiled_operandFor _ _ _ _).bind fun a => ?_
  refine (keepsCompiled_operandFor _ _ _ _).bind fun b => keepsCompiled_get.bind fun g => ?_
  refine keepsCompiled_get.bind fun h => ?_
  split
  · exact (keepsCompiled_rememberFolds _).bind fun _ => keepsCompiled_constant _
  · exact keepsCompiled_intern (fun _ _ _ h => by contradiction) p

theorem keepsCompiled_product (a b : MatrixId) : KeepsCompiled (product a b) := by
  refine (keepsCompiled_patternOf a).bind fun pa => (keepsCompiled_patternOf b).bind fun pb => ?_
  split
  · exact keepsCompiled_throw _
  · exact (keepsCompiled_ofExcept _).bind fun p =>
      keepsCompiled_intern (fun _ _ _ h => by contradiction) p

theorem keepsCompiled_lift (value guess : MatrixId) : KeepsCompiled (lift value guess) := by
  refine (keepsCompiled_patternOf value).bind fun p => (keepsCompiled_patternOf guess).bind fun q => ?_
  split
  · exact keepsCompiled_throw _
  · exact (keepsCompiled_project guess p).bind fun e =>
      keepsCompiled_intern (fun _ _ _ h => by contradiction) p

/-! ### Calls -/

theorem keepsCompiled_callOutput {r : Routine} (hr : r.IsCompiled) (arguments : List MatrixId)
    (o : Nat) : KeepsCompiled (callOutput r arguments o) := by
  refine keepsCompiled_intern (fun s as i h => ?_) _
  obtain ⟨rfl, -, -⟩ := MatrixNode.call.inj h
  exact hr

theorem keepsCompiled_callRoutine {r : Routine} (hr : r.IsCompiled) (arguments : List MatrixId) :
    KeepsCompiled (callRoutine r arguments) := by
  have hcall : KeepsCompiled (do
      let arguments ← (arguments.zip r.inPatterns).mapM fun entry => callArgument entry.1 entry.2
      (List.range r.outPatterns.length).mapM (callOutput r arguments)) := by
    refine (keepsCompiled_mapM (fun entry => ?_) _).bind fun arguments =>
      keepsCompiled_mapM (keepsCompiled_callOutput hr arguments) _
    refine (keepsCompiled_patternOf _).bind fun q => ?_
    split
    · exact keepsCompiled_throw _
    · exact keepsCompiled_project _ _
  rw [callRoutine]
  dsimp only
  split
  · exact (keepsCompiled_throw _).bind fun _ => hcall
  · exact hcall

/-- **Calls** of functions that were compiled. -/
theorem keepsCompiled_call {f : FunctionObject} (hf : f.function.IsCompiled)
    (arguments : List MatrixId) : KeepsCompiled (call f arguments) := by
  rw [call]
  cases hr : f.routine with
  | error e => exact keepsCompiled_throw e
  | ok r => exact keepsCompiled_callRoutine (f.isCompiled_routine hf hr) arguments

/-- The derivative function of a routine, if it was compiled, can be embedded. -/
theorem keepsCompiled_derivativeRoutine_bind {d : Except Error FunctionObject}
    {f : Routine → MatrixBuilder β} (hd : ∀ o, d = .ok o → o.function.IsCompiled)
    (hf : ∀ r : Routine, r.IsCompiled → KeepsCompiled (f r)) :
    KeepsCompiled (MatrixTape.derivativeRoutine d >>= f) := by
  rw [MatrixTape.derivativeRoutine, bind_assoc]
  cases d with
  | error e => exact keepsCompiled_throw e
  | ok o =>
    rw [show (ofExcept (.ok o) : MatrixBuilder FunctionObject) = pure o from rfl, pure_bind,
      bind_assoc]
    refine KeepsCompiled.bind (keepsCompiled_modify fun _ => rfl) fun _ => ?_
    cases hr : o.routine with
    | error e => exact keepsCompiled_throw e
    | ok r => exact hf r (o.isCompiled_routine (hd o rfl) hr)

theorem closed_keepsCompiled : Closed fun _ => KeepsCompiled :=
  ⟨keepsCompiled_pure, KeepsCompiled.bind, fun _ => keepsCompiled_constant _, keepsCompiled_unary,
    keepsCompiled_binary⟩

end MatrixBuilder

/-! ### Sweeps -/

namespace MatrixTape

open MatrixBuilder

variable {known : Sensitivities} {x y a e t s : MatrixId} {p : Pattern}

theorem keepsCompiled_record (e : MatrixId) (p : Pattern) (known : Sensitivities) (t : MatrixId) :
    KeepsCompiled (record e p known t) :=
  (keepsCompiled_project t p).bind fun _ => keepsCompiled_pure _

theorem keepsCompiled_pushUnary (op : UnaryOp) (x e : MatrixId) (p : Pattern)
    (made : Option MatrixId) (known : Sensitivities) :
    KeepsCompiled (pushUnary op x e p made known) := by
  rw [pushUnary]
  split
  · exact keepsCompiled_pure _
  · refine (keepsCompiled_onDemand (closed_keepsCompiled.unaryPartial op x e)).bind fun d => ?_
    exact (keepsCompiled_binary .mul d _).bind fun t => (keepsCompiled_broadcast t p).bind fun _ =>
      keepsCompiled_pure _

theorem keepsCompiled_contribute (op : BinaryOp) (side : Side) (x y e : MatrixId) (p : Pattern)
    (made moved sum : Option MatrixId) : KeepsCompiled (contribute op side x y e p made moved sum) := by
  cases moved with
  | none => exact keepsCompiled_pure _
  | some t =>
    refine (keepsCompiled_onDemand (closed_keepsCompiled.binaryPartial op side x y e)).bind fun d => ?_
    refine (keepsCompiled_binary .mul d t).bind fun term => ?_
    refine (keepsCompiled_broadcast term p).bind fun term => ?_
    cases sum with
    | none => exact keepsCompiled_pure _
    | some s => exact (keepsCompiled_binary .add s term).bind fun _ => keepsCompiled_pure _

theorem keepsCompiled_pushBinary (op : BinaryOp) (x y e : MatrixId) (p : Pattern)
    (made : Option MatrixId × Option MatrixId) (known : Sensitivities) :
    KeepsCompiled (pushBinary op x y e p made known) := by
  refine (keepsCompiled_contribute op .left x y e p _ _ _).bind fun left => ?_
  refine (keepsCompiled_contribute op .right x y e p _ _ _).bind fun right => ?_
  dsimp only
  split
  · exact keepsCompiled_pure _
  · exact (keepsCompiled_record e p known _).bind fun _ => keepsCompiled_pure _

theorem keepsCompiled_optional {f : MatrixId → MatrixBuilder MatrixId} (hf : ∀ t, KeepsCompiled (f t))
    (moved : Option MatrixId) : KeepsCompiled (moved.mapM f) := by
  cases moved with
  | none => exact keepsCompiled_pure none
  | some t => exact (hf t).bind fun d => keepsCompiled_pure (some d)

theorem keepsCompiled_pushProduct (x y e : MatrixId) (p : Pattern) (known : Sensitivities) :
    KeepsCompiled (pushProduct x y e p known) := by
  refine (keepsCompiled_optional (fun t => keepsCompiled_product t y) _).bind fun left => ?_
  refine (keepsCompiled_optional (fun t => keepsCompiled_product x t) _).bind fun right => ?_
  split
  · exact keepsCompiled_pure _
  · exact keepsCompiled_record _ _ _ _
  · exact keepsCompiled_record _ _ _ _
  · exact (keepsCompiled_binary .add _ _).bind fun t => keepsCompiled_record e p known t

theorem keepsCompiled_pushGather (arguments : List MatrixId) (map : GatherMap) (e : MatrixId)
    (p : Pattern) (known : Sensitivities) :
    KeepsCompiled (pushGather arguments map e p known) := by
  rw [pushGather]
  dsimp only
  split
  · exact keepsCompiled_pure _
  · exact (keepsCompiled_fill .scalar 0.0).bind fun zero =>
      (keepsCompiled_gather _ _ _).bind fun t => keepsCompiled_pure _

theorem keepsCompiled_pushCall {d : Routine} (hd : d.IsCompiled) (arguments : List MatrixId) (o : Nat)
    (e : MatrixId) (known : Sensitivities) : KeepsCompiled (pushCall d arguments o e known) := by
  rw [pushCall]
  split
  · exact keepsCompiled_pure _
  · refine (keepsCompiled_mapM (fun a => ?_) arguments).bind fun moved =>
      (keepsCompiled_callOutput hd _ o).bind fun t => keepsCompiled_pure _
    rw [movement]
    split
    · exact keepsCompiled_pure _
    · exact (keepsCompiled_patternOf a).bind fun q => keepsCompiled_fill q 0.0

theorem keepsCompiled_forwardNode (e : MatrixId) (p : Pattern) (directions : List Sensitivities)
    (n : MatrixNode) : KeepsCompiled (forwardNode e p directions n) := by
  cases n with
  | symbol | constant => exact keepsCompiled_pure _
  | unary op x => exact keepsCompiled_inTurn (keepsCompiled_pushUnary op x e p) none directions
  | binary op x y =>
    exact keepsCompiled_inTurn (keepsCompiled_pushBinary op x y e p) (none, none) directions
  | product x y => exact keepsCompiled_mapM (keepsCompiled_pushProduct x y e p) directions
  | gather arguments map q => exact keepsCompiled_mapM (keepsCompiled_pushGather arguments map e q) directions
  | scatter a map q =>
    refine keepsCompiled_mapM (fun known => ?_) directions
    split
    · exact keepsCompiled_pure _
    · exact (keepsCompiled_scatter _ map q).bind fun t => keepsCompiled_pure _
  | call r arguments o =>
    exact keepsCompiled_derivativeRoutine_bind (fun _ => Routine.isCompiled_forwardDerivative)
      fun d hd => keepsCompiled_mapM (keepsCompiled_pushCall hd arguments o e) directions
  | lift value guess => exact keepsCompiled_pure _

theorem keepsCompiled_forwardStep (seeds : List (List (Option MatrixId)))
    (directions : List Sensitivities) (i : MatrixInstr) :
    KeepsCompiled (forwardStep seeds directions i) := by
  rw [forwardStep]
  split
  · exact keepsCompiled_pure _
  · exact keepsCompiled_pure _
  · exact keepsCompiled_pure _
  · refine keepsCompiled_mapM (fun entry => ?_) _
    obtain ⟨seed, known⟩ := entry
    dsimp only
    split
    · exact keepsCompiled_pure _
    · exact keepsCompiled_record _ _ _ _
  · exact keepsCompiled_nodeOf_bind fun n _ => keepsCompiled_forwardNode _ _ directions n

/-- **Forward sweeps** embed derivative functions only. -/
theorem keepsCompiled_forward (tape : MatrixTape) (outputs : List MatrixId)
    (seeds : List (List (Option MatrixId))) : KeepsCompiled (tape.forward outputs seeds) :=
  (keepsCompiled_foldlM (keepsCompiled_forwardStep seeds) tape.instrs _).bind fun _ =>
    keepsCompiled_pure _

theorem keepsCompiled_accumulate (known : Sensitivities) (target term : MatrixId) :
    KeepsCompiled (accumulate known target term) := by
  refine (keepsCompiled_patternOf target).bind fun p => (keepsCompiled_project term p).bind fun t => ?_
  split
  · exact keepsCompiled_pure _
  · exact (keepsCompiled_binary .add _ t).bind fun _ => keepsCompiled_pure _

theorem keepsCompiled_giveBack (op : BinaryOp) (side : Side) (x y e : MatrixId) (p : Pattern)
    (s operand : MatrixId) (made : Option MatrixId) (known : Sensitivities) :
    KeepsCompiled (giveBack op side x y e p s operand made known) := by
  refine (keepsCompiled_onDemand (closed_keepsCompiled.binaryPartial op side x y e)).bind fun d => ?_
  refine (keepsCompiled_binary .mul d s).bind fun term => ?_
  refine (keepsCompiled_patternOf operand).bind fun q => ?_
  have hgiven : ∀ term, KeepsCompiled (do return (some d, ← accumulate known operand term)) :=
    fun term => (keepsCompiled_accumulate known operand term).bind fun _ => keepsCompiled_pure _
  dsimp only
  split
  · exact (keepsCompiled_sum term).bind hgiven
  · exact (keepsCompiled_pure term).bind hgiven

theorem keepsCompiled_pullBinary (op : BinaryOp) (x y e : MatrixId) (p : Pattern) (s : MatrixId)
    (made : Option MatrixId × Option MatrixId) (known : Sensitivities) :
    KeepsCompiled (pullBinary op x y e p s made known) :=
  (keepsCompiled_giveBack op .left x y e p s x made.1 known).bind fun left =>
    (keepsCompiled_giveBack op .right x y e p s y made.2 left.2).bind fun _ => keepsCompiled_pure _

theorem keepsCompiled_pullProduct (x y s : MatrixId) (known : Sensitivities) :
    KeepsCompiled (pullProduct x y s known) :=
  (keepsCompiled_transpose y).bind fun ty => (keepsCompiled_product s ty).bind fun t =>
    (keepsCompiled_accumulate known x t).bind fun known => (keepsCompiled_transpose x).bind fun tx =>
      (keepsCompiled_product tx s).bind fun t => keepsCompiled_accumulate known y t

theorem keepsCompiled_pullGather (arguments : List MatrixId) (map : GatherMap) (s : MatrixId)
    (known : Sensitivities) : KeepsCompiled (pullGather arguments map s known) := by
  refine keepsCompiled_foldlM (fun known entry => ?_) _ known
  exact (keepsCompiled_patternOf entry.1).bind fun q => (keepsCompiled_scatter s _ q).bind fun t =>
    keepsCompiled_accumulate known entry.1 t

theorem keepsCompiled_pullCall (r : Routine) (arguments : List MatrixId) (o : Nat) (s : MatrixId)
    (known : Sensitivities) : KeepsCompiled (pullCall r arguments o s known) := by
  refine keepsCompiled_derivativeRoutine_bind (fun _ => Routine.isCompiled_reverseDerivative)
    fun d hd => ?_
  refine (keepsCompiled_mapM (fun entry => ?_) _).bind fun ws => ?_
  · obtain ⟨p, k⟩ := entry
    dsimp only
    split
    · exact keepsCompiled_pure _
    · exact keepsCompiled_fill _ _
  · refine keepsCompiled_foldlM (fun known entry => ?_) _ known
    exact (keepsCompiled_callOutput hd _ entry.2).bind fun t =>
      keepsCompiled_accumulate known entry.1 t

theorem keepsCompiled_pull (e : MatrixId) (p : Pattern) (n : MatrixNode)
    (made : Option MatrixId × Option MatrixId) (known : Sensitivities) (s : MatrixId) :
    KeepsCompiled (pull e p n made known s) := by
  cases n with
  | symbol | constant => exact keepsCompiled_pure _
  | unary op x =>
    refine KeepsCompiled.bind ?_ fun _ => keepsCompiled_pure _
    refine (keepsCompiled_onDemand (closed_keepsCompiled.unaryPartial op x e)).bind fun d => ?_
    exact (keepsCompiled_binary .mul d s).bind fun t => (keepsCompiled_accumulate known x t).bind
      fun _ => keepsCompiled_pure _
  | binary op x y => exact keepsCompiled_pullBinary op x y e p s made known
  | product x y => exact (keepsCompiled_pullProduct x y s known).bind fun _ => keepsCompiled_pure _
  | gather arguments map q =>
    exact (keepsCompiled_pullGather arguments map s known).bind fun _ => keepsCompiled_pure _
  | scatter a map q =>
    refine KeepsCompiled.bind ?_ fun _ => keepsCompiled_pure _
    exact (keepsCompiled_patternOf a).bind fun _ => (keepsCompiled_gather _ _ _).bind fun t =>
      keepsCompiled_accumulate known a t
  | call r arguments o =>
    exact (keepsCompiled_pullCall r arguments o s known).bind fun _ => keepsCompiled_pure _
  | lift value guess =>
    exact (keepsCompiled_accumulate known value s).bind fun _ => keepsCompiled_pure _

theorem keepsCompiled_reverseStep (seeds : List (List (Option MatrixId)))
    (directions : List Sensitivities) (i : MatrixInstr) :
    KeepsCompiled (reverseStep seeds directions i) := by
  rw [reverseStep]
  split
  · exact keepsCompiled_pure _
  · exact keepsCompiled_pure _
  · exact keepsCompiled_pure _
  · refine keepsCompiled_mapM (fun entry => ?_) _
    obtain ⟨seed, known⟩ := entry
    dsimp only
    split
    · exact keepsCompiled_pure _
    · exact keepsCompiled_accumulate _ _ _
  · refine keepsCompiled_nodeOf_bind fun n _ => keepsCompiled_inTurn (fun made known => ?_) _ directions
    split
    · exact keepsCompiled_pure _
    · exact keepsCompiled_pull _ _ _ _ _ _

/-- **Reverse sweeps** embed derivative functions only. -/
theorem keepsCompiled_reverse (tape : MatrixTape) (inputs : List MatrixId)
    (seeds : List (List (Option MatrixId))) : KeepsCompiled (tape.reverse inputs seeds) :=
  (keepsCompiled_foldlM (keepsCompiled_reverseStep seeds) tape.instrs.reverse _).bind fun _ =>
    keepsCompiled_pure _

end MatrixTape

/-! ### Derivatives and lifting functions -/

namespace MatrixFunction

open MatrixBuilder

variable (f : MatrixFunction) (i o : Nat)

theorem keepsCompiled_groupSeed (p : Pattern) (group : List Nat) : KeepsCompiled (groupSeed p group) :=
  keepsCompiled_constant _

theorem keepsCompiled_orZero (p : Pattern) (d : Option MatrixId) : KeepsCompiled (orZero p d) := by
  cases d with
  | none => exact keepsCompiled_fill p 0.0
  | some e => exact keepsCompiled_pure e

theorem keepsCompiled_forwardColumns (seeds : List MatrixId) :
    KeepsCompiled (f.forwardColumns i o seeds) :=
  (keepsCompiled_ofExcept _).bind fun tape =>
    (MatrixTape.keepsCompiled_forward tape _ _).bind fun _ => keepsCompiled_pure _

theorem keepsCompiled_reverseRows (seeds : List MatrixId) : KeepsCompiled (f.reverseRows i o seeds) :=
  (keepsCompiled_ofExcept _).bind fun tape =>
    (MatrixTape.keepsCompiled_reverse tape _ _).bind fun _ => keepsCompiled_pure _

theorem keepsCompiled_sweepResults (plan : JacobianPlan) : KeepsCompiled (f.sweepResults plan i o) := by
  rw [sweepResults]
  split
  · exact (keepsCompiled_mapM (keepsCompiled_groupSeed _) _).bind fun seeds =>
      (f.keepsCompiled_forwardColumns i o seeds).bind fun columns =>
        keepsCompiled_mapM (keepsCompiled_orZero _) columns
  · exact (keepsCompiled_mapM (keepsCompiled_groupSeed _) _).bind fun seeds =>
      (f.keepsCompiled_reverseRows i o seeds).bind fun rows =>
        keepsCompiled_mapM (keepsCompiled_orZero _) rows

theorem keepsCompiled_jac (compact symmetric : Bool) : KeepsCompiled (f.jac i o compact symmetric) :=
  keepsCompiled_get.bind fun _ => (keepsCompiled_ofExcept _).bind fun _ =>
    (keepsCompiled_ofExcept _).bind fun _ => (f.keepsCompiled_sweepResults i o _).bind fun _ =>
      (keepsCompiled_ofExcept _).bind fun _ => keepsCompiled_gather _ _ _

theorem keepsCompiled_grad : KeepsCompiled (f.grad i o) := by
  have hrows : KeepsCompiled (do
      let rows ← f.reverseRows i o [← .fill (f.outPattern o) 1.0]
      orZero (f.inPattern i) (rows.headD none)) :=
    (keepsCompiled_fill _ _).bind fun seed => (f.keepsCompiled_reverseRows i o [seed]).bind fun _ =>
      keepsCompiled_orZero _ _
  refine keepsCompiled_get.bind fun _ => (keepsCompiled_ofExcept _).bind fun _ => ?_
  dsimp only
  split
  · exact (keepsCompiled_throw _).bind fun _ => hrows
  · exact hrows

theorem keepsCompiled_tang : KeepsCompiled (f.tang i o) := by
  have hcolumns : KeepsCompiled (do
      let columns ← f.forwardColumns i o [← .fill (f.inPattern i) 1.0]
      orZero (f.outPattern o) (columns.headD none)) :=
    (keepsCompiled_fill _ _).bind fun seed =>
      (f.keepsCompiled_forwardColumns i o [seed]).bind fun _ => keepsCompiled_orZero _ _
  refine keepsCompiled_get.bind fun _ => (keepsCompiled_ofExcept _).bind fun _ => ?_
  dsimp only
  split
  · exact (keepsCompiled_throw _).bind fun _ => hcolumns
  · exact hcolumns

theorem keepsCompiled_withOutput (e : MatrixId) (front : String) :
    KeepsCompiled (f.withOutput e front) :=
  keepsCompiled_get.bind fun _ => keepsCompiled_ofExcept _

theorem keepsCompiled_hess : KeepsCompiled (f.hess i o) :=
  (f.keepsCompiled_grad i o).bind fun e => (f.keepsCompiled_withOutput e _).bind fun gradient =>
    gradient.keepsCompiled_jac i 0 false true

/-- **Jacobian functions.** -/
theorem keepsCompiled_jacobian (compact symmetric : Bool) :
    KeepsCompiled (f.jacobian i o compact symmetric) :=
  (f.keepsCompiled_jac i o compact symmetric).bind fun e => f.keepsCompiled_withOutput e _

theorem keepsCompiled_liftNode (l : Lifted) (e : MatrixId) (p : Pattern) {n : MatrixNode}
    (hn : n.RoutineCompiled) : KeepsCompiled (liftNode l e p n) := by
  have hrebuilt : KeepsCompiled (if n.mapOperands l.replace = n then pure l
      else do
        let e' ← .intern (n.mapOperands l.replace) p
        return { l with replaced := l.replaced.insert e.index e' }) := by
    split
    · exact keepsCompiled_pure _
    · exact (keepsCompiled_intern (hn.mapOperands _) p).bind fun _ =>
        keepsCompiled_pure _
  cases n with
  | lift value guess =>
    exact (keepsCompiled_symbol _ p).bind fun z => (keepsCompiled_binary .sub z _).bind fun _ =>
      keepsCompiled_pure _
  | _ => exact hrebuilt

theorem keepsCompiled_liftStep (l : Lifted) (instr : MatrixInstr) :
    KeepsCompiled (liftStep l instr) := by
  rw [liftStep]
  split
  · exact keepsCompiled_pure _
  · exact keepsCompiled_pure _
  · exact keepsCompiled_pure _
  · exact keepsCompiled_pure _
  · exact keepsCompiled_nodeOf_bind fun n hn => keepsCompiled_liftNode l _ _ hn

/-- **Lifting functions.** -/
theorem keepsCompiled_liftingFunctions : KeepsCompiled f.liftingFunctions :=
  keepsCompiled_get.bind fun _ => (keepsCompiled_ofExcept _).bind fun _ =>
    (keepsCompiled_ofExcept _).bind fun _ => (keepsCompiled_foldlM keepsCompiled_liftStep _ _).bind
      fun _ => keepsCompiled_get.bind fun _ => (keepsCompiled_ofExcept _).bind fun _ =>
        keepsCompiled_get.bind fun _ => (keepsCompiled_ofExcept _).bind fun _ => keepsCompiled_pure _

end MatrixFunction

end Fluxion
