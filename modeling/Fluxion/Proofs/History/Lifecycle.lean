import Fluxion.Proofs.History.Answers
import Fluxion.Proofs.History.Ownership

/-!
# The life of a scalar function

A scalar function is declared, initialized, cleared, copied, expanded, evaluated, called and derived, in
any order and together with any number of others. Its tape is compiled once. From then on it is never
compiled again, not even when the function is initialized after its expressions were dropped: there
would be nothing left to compile.

Its expressions are dropped when it is cleared, and by nothing else. They are gone for good then, and
the tape is all that is asked from then on.

This is said of all objects at once. A step may be about any object or graph that there is, and an
object stays at its place from the step that makes it on. What one step does to the function at a place
is a matter of that function alone, and so is what any number of steps do.

Matrix graphs are left out: embedding an object does nothing to it.

## Main definitions

* `ScalarFunction.Develops` — what may become of a function
* `ScalarFunction.ClearsTo` — what becomes of a function that is cleared
* `ScalarFunction.InOrder` — what a function keeps fits its patterns
* `ObjectWorld`, `ObjectWorld.Step`, `ObjectWorld.Leads` — all objects, and what happens to them
* `ObjectWorld.Origin` — where functions come from in a step

## Main results

* `ObjectWorld.Step.develops`, `ObjectWorld.Step.origin` — one step
* `ObjectWorld.keeps_algorithm` — **a scalar function keeps its algorithm for life**
-/

namespace Fluxion

/-! ### One step of a life -/

namespace ScalarFunction

variable {f f' f'' : ScalarFunction} {g : ScalarGraph}

/-- What may become of a function: all but its expressions stays, and its tape if there is one.
Expressions that are dropped do not come back. -/
structure Develops (f f' : ScalarFunction) : Prop where
  options : f'.options = f.options
  owner : f'.owner = f.owner
  inPatterns : f'.inPatterns = f.inPatterns
  outPatterns : f'.outPatterns = f.outPatterns
  tape : ∀ t, f.stage.tape? = some t → f'.stage.tape? = some t
  cleared : f.hasExpressions = false → f'.hasExpressions = false

/-- What becomes of a function that is cleared: it has no expressions, and its tape is the same. -/
structure ClearsTo (f f' : ScalarFunction) : Prop where
  hasExpressions : f'.hasExpressions = false
  inputs : f'.inputs = []
  outputs : f'.outputs = []
  tape : ∃ t, f.stage.tape? = some t ∧ f'.stage.tape? = some t
  develops : f.Develops f'

/-- A function that has its expressions has them on its patterns. -/
structure Complete (f : ScalarFunction) : Prop where
  hasExpressions : f.hasExpressions = true
  inputs : f.inputs.map SparseMatrix.pattern = f.inPatterns
  outputs : f.outputs.map SparseMatrix.pattern = f.outPatterns

/-- What a function keeps fits its patterns: expressions on the patterns, or none but a tape. -/
structure InOrder (f : ScalarFunction) : Prop where
  kept : f.hasExpressions = true →
    f.inputs.map SparseMatrix.pattern = f.inPatterns ∧
      f.outputs.map SparseMatrix.pattern = f.outPatterns
  cleared : f.hasExpressions = false → f.isInitialized = true ∧ f.inputs = [] ∧ f.outputs = []

theorem Develops.refl (f : ScalarFunction) : f.Develops f :=
  ⟨rfl, rfl, rfl, rfl, fun _ h => h, fun h => h⟩

theorem Develops.trans (h : f.Develops f') (h' : f'.Develops f'') : f.Develops f'' where
  options := h'.options.trans h.options
  owner := h'.owner.trans h.owner
  inPatterns := h'.inPatterns.trans h.inPatterns
  outPatterns := h'.outPatterns.trans h.outPatterns
  tape := fun t ht => h'.tape t (h.tape t ht)
  cleared := fun hf => h'.cleared (h.cleared hf)

/-- What becomes of a function that has a tape, in two ways, has the same algorithm. -/
theorem Develops.alike (h : f.Develops f') (h' : f.Develops f'') (hf : f.isInitialized = true) :
    f'.Alike f'' where
  options := h'.options.trans h.options.symm
  inPatterns := h'.inPatterns.trans h.inPatterns.symm
  outPatterns := h'.outPatterns.trans h.outPatterns.symm
  tape? := by
    obtain ⟨t, ht⟩ := Option.isSome_iff_exists.mp hf
    rw [h.tape t ht, h'.tape t ht]
  owner := .inl (h'.owner.trans h.owner.symm)

theorem develops_init (hinit : f.init g = .ok f') : f.Develops f' := by
  obtain ⟨-, ⟨rfl, -⟩ | ⟨e, tape, hstage, -, rfl⟩⟩ := init_cases hinit
  · exact .refl f'
  · refine ⟨rfl, rfl, rfl, rfl, fun t ht => ?_, fun hf => ?_⟩
    · rw [hstage] at ht
      contradiction
    · rw [hasExpressions, hstage] at hf
      contradiction

theorem clearsTo_clear (hclear : f.clear = .ok f') : f.ClearsTo f' := by
  obtain ⟨tape, htape, rfl⟩ := clear_eq_ok hclear
  exact ⟨rfl, rfl, rfl, ⟨tape, htape, rfl⟩,
    ⟨rfl, rfl, rfl, rfl, fun t ht => htape.symm.trans ht, fun _ => rfl⟩⟩

theorem exists_clear (hf : f.isInitialized = true) : ∃ f', f.clear = .ok f' := by
  obtain ⟨tape, htape⟩ := Option.isSome_iff_exists.mp hf
  refine ⟨{ f with stage := .cleared tape }, ?_⟩
  rw [clear, ScalarFunction.tape, htape]
  rfl

theorem complete_of_expressions {e : Expressions} (he : f.stage.expressions? = some e)
    (hin : f.inPatterns = e.inputs.map SparseMatrix.pattern)
    (hout : f.outPatterns = e.outputs.map SparseMatrix.pattern) : f.Complete where
  hasExpressions := by rw [hasExpressions, he]; rfl
  inputs := by rw [inputs, he, hin]; rfl
  outputs := by rw [outputs, he, hout]; rfl

theorem Complete.inOrder (hf : f.Complete) : f.InOrder where
  kept := fun _ => ⟨hf.inputs, hf.outputs⟩
  cleared := fun h => by
    rw [hf.hasExpressions] at h
    contradiction

theorem InOrder.eq_patterns (hf : f.InOrder) {e : Expressions}
    (he : f.stage.expressions? = some e) : f.inPatterns = e.inputs.map SparseMatrix.pattern ∧
      f.outPatterns = e.outputs.map SparseMatrix.pattern := by
  obtain ⟨hin, hout⟩ := hf.kept (by rw [hasExpressions, he]; rfl)
  rw [inputs, he] at hin
  rw [outputs, he] at hout
  exact ⟨hin.symm, hout.symm⟩

theorem complete_declare {inputs outputs : List (SparseMatrix ScalarId)} {options : FunctionOptions}
    (hf : declare g inputs outputs options = .ok f) : f.Complete := by
  rw [declare] at hf
  split at hf
  · contradiction
  · obtain rfl := Except.ok.inj hf
    exact complete_of_expressions (e := ⟨inputs, outputs, none⟩) rfl rfl rfl

theorem InOrder.init (hf : f.InOrder) (hinit : f.init g = .ok f') : f'.InOrder := by
  obtain ⟨-, ⟨rfl, -⟩ | ⟨e, tape, hstage, -, rfl⟩⟩ := init_cases hinit
  · exact hf
  · obtain ⟨hin, hout⟩ := hf.eq_patterns (e := e) (by rw [hstage]; rfl)
    exact Complete.inOrder (complete_of_expressions rfl hin hout)

/-- A function that has no expressions when it is initialized had none before. -/
theorem init_of_dropped (hinit : f.init g = .ok f') (hf' : f'.hasExpressions = false) : f' = f := by
  obtain ⟨-, ⟨rfl, -⟩ | ⟨e, tape, -, -, rfl⟩⟩ := init_cases hinit
  · rfl
  · contradiction

theorem ClearsTo.inOrder (h : f.ClearsTo f') : f'.InOrder where
  kept := fun hf => by
    rw [h.hasExpressions] at hf
    contradiction
  cleared := fun _ => by
    obtain ⟨t, -, ht⟩ := h.tape
    exact ⟨by rw [isInitialized, ht]; rfl, h.inputs, h.outputs⟩

theorem Complete.settle (hf : f.Complete) (g : ScalarGraph) : (f.settle g).Complete := by
  rw [ScalarFunction.settle]
  split
  · rename_i e hstage
    obtain ⟨hin, hout⟩ := hf.inOrder.eq_patterns (e := e) (by rw [hstage]; rfl)
    exact complete_of_expressions rfl hin hout
  · rename_i e tape hstage
    obtain ⟨hin, hout⟩ := hf.inOrder.eq_patterns (e := e) (by rw [hstage]; rfl)
    exact complete_of_expressions rfl hin hout
  · exact hf

theorem complete_make {inputs outputs : List (SparseMatrix ScalarId)} {options : FunctionOptions}
    (hf : make g inputs outputs options = .ok f) : f.Complete := by
  obtain ⟨tape, hmakes⟩ := makes_of_make hf
  exact complete_of_expressions (e := ⟨inputs, outputs, none⟩) (by rw [hmakes.stage]; rfl)
    hmakes.inPatterns hmakes.outPatterns

end ScalarFunction

namespace FunctionObject

variable {o d : FunctionObject}

/-- Derivative functions are made with their expressions. -/
theorem complete_derivative (hd : o.forwardDerivative = .ok d ∨ o.reverseDerivative = .ok d) :
    d.function.Complete := by
  have hstandalone : ∀ {r : Routine} {id front build f}, r.standalone id front build = .ok f →
      f.Complete := by
    intro r id front build f hf
    obtain ⟨inputs, outputs, g, k, -, hmake, rfl⟩ := Routine.standalone_eq_ok hf
    exact (ScalarFunction.complete_make hmake).settle g
  rw [forwardDerivative, reverseDerivative] at hd
  cases hr : o.routine with
  | error e =>
    rw [hr] at hd
    rcases hd with hd | hd <;> contradiction
  | ok r =>
    rw [hr] at hd
    rcases hd with hd | hd
    · exact hstandalone (Routine.function_forwardDerivative hd)
    · exact hstandalone (Routine.function_reverseDerivative hd)

end FunctionObject

/-! ### All lives -/

/-- All scalar graphs and function objects that there are. An object is known by its place. -/
structure ObjectWorld where
  graphs : GraphId → Option ScalarGraph
  objects : List FunctionObject

namespace ObjectWorld

/-- Nothing. -/
def start : ObjectWorld := ⟨fun _ => none, []⟩

/-- One thing that happens. A graph is made, copied or asked for something, or the object at a place is
asked for something. Objects that are made come last, and an object that is changed is replaced by a
copy with the changed function. A request that fails is no step: it leaves objects and graphs alone,
but for what a graph has added before. Nothing depends on the identities that objects are given. -/
inductive Step : ObjectWorld → ObjectWorld → Prop
  | new {gs os} (id : GraphId) : gs id = none →
      Step ⟨gs, os⟩ ⟨Function.update gs id (some (.new id)), os⟩
  | fork {gs os i} {g : ScalarGraph} (id : GraphId) : gs id = none → gs i = some g →
      Step ⟨gs, os⟩ ⟨Function.update gs id (some (g.fork id)), os⟩
  /-- A copy of the graph that an object keeps. -/
  | home {gs os} {k : Nat} {o : FunctionObject} {g : ScalarGraph} (id : GraphId) : gs id = none →
      os[k]? = some o → o.function.home = some g →
      Step ⟨gs, os⟩ ⟨Function.update gs id (some (g.fork id)), os⟩
  | request {gs os i g} (r : ScalarRequest) (id : FunctionId) : gs i = some g →
      Step ⟨gs, os⟩ ⟨Function.update gs i (some (r.after g)), os ++ (r.made g).map (.new id)⟩
  | declare {gs os i g inputs outputs options f} (id : FunctionId) : gs i = some g →
      ScalarFunction.declare g inputs outputs options = .ok f →
      Step ⟨gs, os⟩ ⟨gs, os ++ [.new id f]⟩
  | init {gs os i g f} {k : Nat} {o : FunctionObject} (id : FunctionId)
      (isMade : FunctionId → Bool) :
      gs i = some g → os[k]? = some o → o.function.init g = .ok f →
      Step ⟨gs, os⟩ ⟨gs, os.set k (o.copy id f isMade)⟩
  | clear {gs os f} {k : Nat} {o : FunctionObject} (id : FunctionId) (isMade : FunctionId → Bool) :
      os[k]? = some o → o.function.clear = .ok f →
      Step ⟨gs, os⟩ ⟨gs, os.set k (o.copy id f isMade)⟩
  | clone {gs os} {k : Nat} {o : FunctionObject} (id : FunctionId) (isMade : FunctionId → Bool) :
      os[k]? = some o → Step ⟨gs, os⟩ ⟨gs, os ++ [o.copy id o.function isMade]⟩
  | expand {gs os i g h f} {k : Nat} {o : FunctionObject} (id : FunctionId)
      (isMade : FunctionId → Bool) :
      gs i = some g → os[k]? = some o → (Function.scalar o).expand g = .ok f h →
      Step ⟨gs, os⟩ ⟨Function.update gs i (some h), os ++ [o.copy id f isMade]⟩
  | forwardDerivative {gs os} {k : Nat} {o d : FunctionObject} : os[k]? = some o →
      o.forwardDerivative = .ok d → Step ⟨gs, os⟩ ⟨gs, os ++ [d]⟩
  | reverseDerivative {gs os} {k : Nat} {o d : FunctionObject} : os[k]? = some o →
      o.reverseDerivative = .ok d → Step ⟨gs, os⟩ ⟨gs, os ++ [d]⟩
  | eval {gs os arguments results} {k : Nat} {o : FunctionObject} : os[k]? = some o →
      o.function.eval arguments = .ok results → Step ⟨gs, os⟩ ⟨gs, os⟩
  | call {gs os i g} {k : Nat} {o : FunctionObject} (arguments : List (SparseMatrix ScalarId)) :
      gs i = some g → os[k]? = some o →
      Step ⟨gs, os⟩ ⟨Function.update gs i (some ((o.function.call arguments).after g)), os⟩

/-- What becomes of a world in any number of steps. -/
def Leads : ObjectWorld → ObjectWorld → Prop := Relation.ReflTransGen Step

variable {w w' : ObjectWorld}

/-- **One step** leaves every object at its place, and what becomes of its function is part of its
life. -/
theorem Step.develops (hstep : Step w w') {k : Nat} {o : FunctionObject}
    (ho : w.objects[k]? = some o) :
    ∃ o', w'.objects[k]? = some o' ∧ o.function.Develops o'.function := by
  have hlt : k < w.objects.length := (List.getElem?_eq_some_iff.mp ho).1
  have happend : ∀ added, (w.objects ++ added)[k]? = some o := fun added => by
    rw [List.getElem?_append_left hlt, ho]
  have hset : ∀ {j : Nat} {o₁ o₂ : FunctionObject}, w.objects[j]? = some o₁ →
      o₁.function.Develops o₂.function →
      ∃ o', (w.objects.set j o₂)[k]? = some o' ∧ o.function.Develops o'.function := by
    intro j o₁ o₂ ho₁ hdevelops
    by_cases hj : j = k
    · obtain rfl := hj
      obtain rfl := Option.some.inj (ho₁.symm.trans ho)
      exact ⟨o₂, List.getElem?_set_self hlt, hdevelops⟩
    · exact ⟨o, (List.getElem?_set_ne hj).trans ho, .refl _⟩
  cases hstep with
  | new | fork | home | eval | call => exact ⟨o, ho, .refl _⟩
  | request | declare | clone | expand | forwardDerivative | reverseDerivative =>
    exact ⟨o, happend _, .refl _⟩
  | init _ _ _ ho₁ hinit => exact hset ho₁ (ScalarFunction.develops_init hinit)
  | clear _ _ ho₁ hclear => exact hset ho₁ (ScalarFunction.clearsTo_clear hclear).develops

/-- **Any number of steps.** -/
theorem Leads.develops (hleads : w.Leads w') {k : Nat} {o : FunctionObject}
    (ho : w.objects[k]? = some o) :
    ∃ o', w'.objects[k]? = some o' ∧ o.function.Develops o'.function := by
  induction hleads with
  | refl => exact ⟨o, ho, .refl _⟩
  | tail _ hstep ih =>
    obtain ⟨o₁, ho₁, hdevelops⟩ := ih
    obtain ⟨o₂, ho₂, hdevelops'⟩ := hstep.develops ho₁
    exact ⟨o₂, ho₂, hdevelops.trans hdevelops'⟩

/-- Where a function comes from that there is after a step: it was made with its expressions, or it was
there, or it was initialized or cleared. -/
inductive Origin (w : ObjectWorld) (f : ScalarFunction) : Prop
  | made : f.Complete → Origin w f
  | kept {o : FunctionObject} : o ∈ w.objects → f = o.function → Origin w f
  | initialized {o : FunctionObject} {g : ScalarGraph} : o ∈ w.objects →
      o.function.init g = .ok f → Origin w f
  | cleared {o : FunctionObject} : o ∈ w.objects → o.function.clear = .ok f → Origin w f

/-- **One step** makes functions in one of these ways. -/
theorem Step.origin (hstep : Step w w') : ∀ o ∈ w'.objects, w.Origin o.function := by
  have hkept : ∀ o ∈ w.objects, w.Origin o.function := fun o ho => .kept ho rfl
  have happend : ∀ added, (∀ o ∈ added, w.Origin o.function) →
      ∀ o ∈ w.objects ++ added, w.Origin o.function := fun added hadded o ho =>
    (List.mem_append.mp ho).elim (hkept o) (hadded o)
  have hset : ∀ {k : Nat} {o' : FunctionObject}, w.Origin o'.function →
      ∀ o ∈ w.objects.set k o', w.Origin o.function := fun ho' o ho =>
    (List.mem_or_eq_of_mem_set ho).elim (hkept o) fun heq => heq ▸ ho'
  cases hstep with
  | new | fork | home | eval | call => exact hkept
  | request r id =>
    refine happend _ fun o ho => ?_
    obtain ⟨f, hf, rfl⟩ := List.mem_map.mp ho
    obtain ⟨_, _, _, hmake⟩ := r.allMade_made _ f hf
    exact .made (ScalarFunction.complete_make hmake)
  | declare id _ hf =>
    exact happend _ (List.forall_mem_singleton.mpr (.made (ScalarFunction.complete_declare hf)))
  | init id isMade _ ho hinit => exact hset (.initialized (List.mem_of_getElem? ho) hinit)
  | clear id isMade ho hclear => exact hset (.cleared (List.mem_of_getElem? ho) hclear)
  | clone id isMade ho =>
    exact happend _ (List.forall_mem_singleton.mpr (.kept (List.mem_of_getElem? ho) rfl))
  | expand id isMade _ ho hexpand =>
    cases hexpand
    exact happend _ (List.forall_mem_singleton.mpr (.kept (List.mem_of_getElem? ho) rfl))
  | forwardDerivative _ hd =>
    exact happend _
      (List.forall_mem_singleton.mpr (.made (FunctionObject.complete_derivative (.inl hd))))
  | reverseDerivative _ hd =>
    exact happend _
      (List.forall_mem_singleton.mpr (.made (FunctionObject.complete_derivative (.inr hd))))

theorem Origin.inOrder {f : ScalarFunction} (hw : ∀ o ∈ w.objects, o.function.InOrder)
    (hf : w.Origin f) : f.InOrder := by
  cases hf with
  | made hcomplete => exact hcomplete.inOrder
  | kept ho heq => exact heq ▸ hw _ ho
  | initialized ho hinit => exact (hw _ ho).init hinit
  | cleared ho hclear => exact (ScalarFunction.clearsTo_clear hclear).inOrder

/-- Expressions are dropped by clearing alone. -/
theorem Origin.dropped {f : ScalarFunction} (hf : w.Origin f) (hdropped : f.hasExpressions = false) :
    ∃ o ∈ w.objects, f = o.function ∨ o.function.clear = .ok f := by
  cases hf with
  | made hcomplete => exact absurd (hcomplete.hasExpressions.symm.trans hdropped) (by decide)
  | @kept o ho heq => exact ⟨o, ho, .inl heq⟩
  | @initialized o g ho hinit => exact ⟨o, ho, .inl (ScalarFunction.init_of_dropped hinit hdropped)⟩
  | @cleared o ho hclear => exact ⟨o, ho, .inr hclear⟩

theorem inOrder_of_leads (hleads : start.Leads w) : ∀ o ∈ w.objects, o.function.InOrder := by
  induction hleads with
  | refl => exact fun o ho => (List.not_mem_nil ho).elim
  | tail _ hstep ih => exact fun o ho => (hstep.origin o ho).inOrder ih

/-- **A scalar function keeps its algorithm for life**, whatever happens to it, to its clones and to the
graphs.

Once it has a tape, neither the tape nor anything but the expressions changes, and it goes on answering
the same; so do its clones, whichever of them are cleared or initialized again. What it keeps is in
order: expressions on its patterns, or no expressions but a tape. Without a tape it answers nothing that
needs one. With a tape it can be cleared: then it has no inputs and outputs, the tape is the same, and it
answers the same as before. Nothing else drops expressions: a function without them after a step had
none before, or was cleared. Derivative functions answer the same in whichever graph they are made. -/
theorem keeps_algorithm :
    (∀ w w' : ObjectWorld, w.Leads w' → ∀ (k : Nat) (o : FunctionObject), w.objects[k]? = some o →
      ∃ o', w'.objects[k]? = some o' ∧ o.function.Develops o'.function ∧
        (o.function.isInitialized = true → o.SameAnswers o')) ∧
    (∀ w w' : ObjectWorld, w.Leads w' → ∀ (j k : Nat) (o c o' c' : FunctionObject),
      w.objects[j]? = some o → w.objects[k]? = some c → c.function = o.function →
      o.function.isInitialized = true → w'.objects[j]? = some o' → w'.objects[k]? = some c' →
        o'.SameAnswers c') ∧
    (∀ w : ObjectWorld, start.Leads w → ∀ o ∈ w.objects, o.function.InOrder) ∧
    (∀ o : FunctionObject, o.function.isInitialized = false → o.AwaitsInit) ∧
    (∀ o : FunctionObject, o.function.isInitialized = true → ∃ f, o.function.clear = .ok f) ∧
    (∀ o c : FunctionObject, o.function.clear = .ok c.function →
      o.function.ClearsTo c.function ∧ o.SameAnswers c) ∧
    (∀ w w' : ObjectWorld, w.Step w' → ∀ o' ∈ w'.objects, o'.function.hasExpressions = false →
      ∃ o ∈ w.objects, o'.function = o.function ∨ o.function.clear = .ok o'.function) ∧
    ∀ o d : FunctionObject, o.forwardDerivative = .ok d ∨ o.reverseDerivative = .ok d →
      ∀ id, d.SameAnswers (d.as id) := by
  refine ⟨fun w w' hleads k o ho => ?_, fun w w' hleads j k o c o' c' ho hc hclone hinit ho' hc' => ?_,
    fun w hw => inOrder_of_leads hw, fun o ho => FunctionObject.awaitsInit ho,
    fun o ho => ScalarFunction.exists_clear ho, fun o c hclear => ?_,
    fun w w' hstep o' ho' => (hstep.origin o' ho').dropped,
    fun o d hd => FunctionObject.sameAnswers_as hd⟩
  · obtain ⟨o', ho', hdevelops⟩ := hleads.develops ho
    exact ⟨o', ho', hdevelops, fun hinit =>
      FunctionObject.sameAnswers_of_alike ((ScalarFunction.Develops.refl _).alike hdevelops hinit)⟩
  · obtain ⟨o₁, ho₁, hdevelops⟩ := hleads.develops ho
    obtain ⟨c₁, hc₁, hdevelops'⟩ := hleads.develops hc
    obtain rfl := Option.some.inj (ho₁.symm.trans ho')
    obtain rfl := Option.some.inj (hc₁.symm.trans hc')
    exact FunctionObject.sameAnswers_of_alike (hdevelops.alike (hclone ▸ hdevelops') hinit)
  · have hclears := ScalarFunction.clearsTo_clear hclear
    obtain ⟨tape, htape, -⟩ := hclears.tape
    refine ⟨hclears, FunctionObject.sameAnswers_of_alike ((ScalarFunction.Develops.refl _).alike
      hclears.develops ?_)⟩
    rw [ScalarFunction.isInitialized, htape]
    rfl

end ObjectWorld

namespace ClonedSine

/-- A graph with a symbol and its sine. -/
def graph : ScalarGraph :=
  (ScalarRequest.unary .sin ⟨3⟩).after ((ScalarRequest.symbol "x").after (.new (.numbered 0)))

/-- The sine as a function that was declared. -/
def declared : ScalarFunction where
  options := {}
  owner := ⟨.numbered 0, 4⟩
  inPatterns := [.scalar]
  outPatterns := [.scalar]
  stage := .declared ⟨[.scalar ⟨3⟩], [.scalar ⟨4⟩], none⟩

/-- Load, compute, store. -/
def tape : ScalarTape where
  instrs := [.input 0 0 0, .unary .sin 0 0, .output 0 0 0]
  freeSymbols := []
  freeNames := []
  workSize := 1

/-- The function when it is initialized. -/
def initialized : ScalarFunction :=
  { declared with stage := .initialized ⟨[.scalar ⟨3⟩], [.scalar ⟨4⟩], none⟩ tape }

/-- The function when it is cleared. -/
def cleared : ScalarFunction := { declared with stage := .cleared tape }

/-- A function as an object. -/
def object (n : Nat) (f : ScalarFunction) : FunctionObject := .new (.numbered n) f

/-- The graph alone. -/
def graphs : GraphId → Option ScalarGraph :=
  Function.update (Function.update (Function.update (fun _ => none) (.numbered 0)
    (some (.new (.numbered 0)))) (.numbered 0)
    (some ((ScalarRequest.symbol "x").after (.new (.numbered 0))))) (.numbered 0) (some graph)

/-- The initialized function and its clone. -/
def cloned : ObjectWorld := ⟨graphs, [object 0 initialized, object 1 initialized]⟩

/-- The clone is cleared, and initialized once more. -/
def last : ObjectWorld := ⟨graphs, [object 0 initialized, object 1 cleared]⟩

theorem leads_cloned : ObjectWorld.start.Leads cloned := by
  have hnew := Relation.ReflTransGen.single
    (@ObjectWorld.Step.new (fun _ => none) [] (.numbered 0) rfl)
  have hsymbol := hnew.tail (.request (.symbol "x") (.numbered 0) (i := .numbered 0)
    (Function.update_self ..))
  have hsine := hsymbol.tail (.request (.unary .sin ⟨3⟩) (.numbered 0) (i := .numbered 0)
    (Function.update_self ..))
  have hdeclare : ScalarFunction.declare graph [.scalar ⟨3⟩] [.scalar ⟨4⟩] {} = .ok declared := rfl
  have hinit : declared.init graph = .ok initialized := rfl
  have hdeclared := hsine.tail (.declare (.numbered 0) (i := .numbered 0) rfl hdeclare)
  have hinitialized := hdeclared.tail
    (.init (.numbered 0) (fun _ => true) (i := .numbered 0) (k := 0) rfl rfl hinit)
  have hclone : ObjectWorld.Step ⟨graphs, [object 0 initialized]⟩ cloned :=
    .clone (.numbered 1) (fun _ => false) (k := 0) (o := object 0 initialized) rfl
  exact hinitialized.tail hclone

theorem step_cleared : cloned.Step last :=
  .clear (.numbered 1) (fun _ => true) (k := 1) (o := object 1 initialized) rfl
    (show initialized.clear = .ok cleared from rfl)

theorem leads_last : cloned.Leads last := by
  have hinit : cleared.init graph = .ok cleared := rfl
  have hagain : ObjectWorld.Step last last :=
    .init (.numbered 1) (fun _ => true) (i := .numbered 0) (k := 1) (o := object 1 cleared) rfl rfl
      hinit
  exact (Relation.ReflTransGen.single step_cleared).tail hagain

theorem keeps_algorithm_sine :
    (∃ o, last.objects[1]? = some o ∧ initialized.Develops o.function ∧
      (object 1 initialized).SameAnswers o) ∧
    (object 0 initialized).SameAnswers (object 1 cleared) ∧
    (∀ o ∈ last.objects, o.function.InOrder) ∧
    (object 0 declared).AwaitsInit ∧
    (∃ f, initialized.clear = .ok f) ∧
    initialized.ClearsTo cleared ∧ (object 1 initialized).SameAnswers (object 1 cleared) ∧
    (∃ o ∈ cloned.objects, cleared = o.function ∨ o.function.clear = .ok cleared) ∧
    ∃ d, (object 0 initialized).forwardDerivative = .ok d ∧ ∀ id, d.SameAnswers (d.as id) := by
  obtain ⟨hdevelops, hclones, hinOrder, hawaits, hexists, hclear, hdropped, has⟩ :=
    ObjectWorld.keeps_algorithm
  obtain ⟨o, ho, hdevelops, hsame⟩ := hdevelops cloned last leads_last 1 (object 1 initialized) rfl
  obtain ⟨r, hr⟩ : ∃ r, (object 0 initialized).routine = .ok r := ⟨_, rfl⟩
  obtain ⟨d, s, hd, hs⟩ := r.exists_forwardDerivative
  have hderivative : (object 0 initialized).forwardDerivative = .ok d := by
    rw [FunctionObject.forwardDerivative, hr]
    exact hd
  obtain ⟨hclears, hanswers⟩ := hclear (object 1 initialized) (object 1 cleared) rfl
  exact ⟨⟨o, ho, hdevelops, hsame rfl⟩,
    hclones cloned last leads_last 0 1 _ _ _ _ rfl rfl rfl rfl rfl rfl,
    hinOrder last (leads_cloned.trans leads_last), hawaits _ rfl,
    hexists (object 1 initialized) rfl, hclears, hanswers,
    hdropped cloned last step_cleared (object 1 cleared) (by simp [last]) rfl, d, hderivative,
    has _ d (.inl hderivative)⟩

end ClonedSine

end Fluxion
