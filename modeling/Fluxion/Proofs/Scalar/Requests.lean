import Fluxion.Function
import Fluxion.Proofs.Scalar.Building

/-!
# What a scalar graph can be asked for

However large a request is, it adds nodes by four builders only: literals, symbols, and operations on
one and on two operands. Replays, sweeps, derivatives and expansions are put together from these, and
so is every request. What the four builders do to a graph, and what is then still true after one step
more, is done by every request, with any arguments and whether it succeeds or fails. Symbols are only
added by requests for symbols and by expansions, and only requests to functions look at the graph that
they are made in.

## Main definitions

* `ScalarBuilder.Assembled` — put together from the four builders
* `ScalarRequest`, `ScalarRequest.run`, `ScalarRequest.after` — requests
* `ScalarGraph.Reachable` — graphs that are there after any number of copies and requests

## Main results

* `ScalarBuilder.Assembled.relates` — what the four builders do, everything assembled does
* `ScalarRequest.assembled_run` — **every request is assembled**
-/

namespace Fluxion

/-! ### Assembled requests -/

namespace ScalarBuilder

/-- The request adds nodes by the four builders only, and symbols only if it may. It looks at the graph
only if it may. -/
inductive Assembled (naming looking : Prop) : {α : Type} → ScalarBuilder α → Prop
  | pure {α : Type} (a : α) : Assembled naming looking (pure a)
  | throw {α : Type} (e : Error) : Assembled naming looking (throw e : ScalarBuilder α)
  | get : looking → Assembled naming looking get
  | literal (v : Binary64) : Assembled naming looking (literal v)
  | symbol (name : String) : naming → Assembled naming looking (symbol name)
  | unary (op : UnaryOp) (a : ScalarId) : Assembled naming looking (unary op a)
  | binary (op : BinaryOp) (a b : ScalarId) : Assembled naming looking (binary op a b)
  | bind {α β : Type} {x : ScalarBuilder α} {f : α → ScalarBuilder β} :
    Assembled naming looking x → (∀ a, Assembled naming looking (f a)) →
      Assembled naming looking (x >>= f)

variable {α β σ : Type} {naming looking : Prop}

theorem after_bind (x : ScalarBuilder α) (f : α → ScalarBuilder β) (g : ScalarGraph) :
    (∃ a, (x >>= f).after g = (f a).after (x.after g)) ∨ (x >>= f).after g = x.after g := by
  cases h : x g with
  | ok a k => exact .inl ⟨a, by simp only [after, Bind.bind, EStateM.bind, h]⟩
  | error e k => exact .inr (by simp only [after, Bind.bind, EStateM.bind, h])

/-- **What the four builders do, everything assembled does.** The relation tells how the graph that is
left is related to the one before. -/
theorem Assembled.relates {R : ScalarGraph → ScalarGraph → Prop} (refl : ∀ g, R g g)
    (trans : ∀ {g h k}, R g h → R h k → R g k)
    (literal : ∀ v g, R g ((ScalarBuilder.literal v).after g))
    (symbol : naming → ∀ name g, R g ((ScalarBuilder.symbol name).after g))
    (unary : ∀ op a g, R g ((ScalarBuilder.unary op a).after g))
    (binary : ∀ op a b g, R g ((ScalarBuilder.binary op a b).after g))
    {x : ScalarBuilder α} (hx : Assembled naming looking x) (g : ScalarGraph) : R g (x.after g) := by
  induction hx generalizing g with
  | pure _ | throw _ | get _ => exact refl g
  | literal v => exact literal v g
  | symbol name hnaming => exact symbol hnaming name g
  | unary op a => exact unary op a g
  | binary op a b => exact binary op a b g
  | @bind α β x f _ _ ihx ihf =>
    rcases after_bind x f g with ⟨a, hafter⟩ | hafter
    · rw [hafter]
      exact trans (ihx g) (ihf a _)
    · rw [hafter]
      exact ihx g

namespace Assembled

theorem ofExcept (x : Except Error α) : Assembled naming looking (ofExcept x) := by
  cases x with
  | ok a => exact .pure a
  | error e => exact .throw e

theorem foldlM {f : σ → α → ScalarBuilder σ} (hf : ∀ s a, Assembled naming looking (f s a))
    (as : List α) (s : σ) : Assembled naming looking (as.foldlM f s) := by
  induction as generalizing s with
  | nil => exact .pure s
  | cons a rest ih =>
    rw [List.foldlM_cons]
    exact (hf s a).bind ih

theorem mapM {f : α → ScalarBuilder β} (hf : ∀ a, Assembled naming looking (f a)) (as : List α) :
    Assembled naming looking (as.mapM f) := by
  induction as with
  | nil =>
    rw [List.mapM_nil]
    exact .pure _
  | cons a rest ih =>
    rw [List.mapM_cons]
    exact (hf a).bind fun b => ih.bind fun bs => .pure (b :: bs)

theorem inTurn {f : σ → α → ScalarBuilder (σ × β)} (hf : ∀ s a, Assembled naming looking (f s a))
    (s : σ) (as : List α) : Assembled naming looking (Fluxion.inTurn f s as) := by
  induction as generalizing s with
  | nil => exact .pure []
  | cons a rest ih => exact (hf s a).bind fun p => (ih p.1).bind fun bs => .pure (p.2 :: bs)

theorem onDemand {made : Option α} {make : ScalarBuilder α} (hmake : Assembled naming looking make) :
    Assembled naming looking (Fluxion.onDemand made make) := by
  cases made with
  | some v => exact .pure v
  | none => exact hmake

theorem symbolMatrix (name : String) (p : Pattern) : Assembled True looking (symbolMatrix name p) :=
  (mapM (fun _ => .symbol _ trivial) _).bind fun _ => .pure _

theorem sum (m : SparseMatrix ScalarId) : Assembled naming looking (sum m) :=
  foldlM (fun s a => .binary .add s a) _ _

/-! ### Partial derivatives -/

theorem unaryPartial (op : UnaryOp) (x f : ScalarId) :
    Assembled naming looking (unaryPartial scalarAlgebra op x f) := by
  cases op with
  | neg => exact .literal _
  | sqrt => exact (literal _).bind fun half => binary .div half f
  | sin => exact unary .cos x
  | cos => exact (unary .sin x).bind fun s => unary .neg s
  | tan =>
    exact (literal _).bind fun one => (binary .mul f f).bind fun square => binary .add one square
  | exp => exact .pure f
  | log => exact (literal _).bind fun one => binary .div one x
  | tanh =>
    exact (literal _).bind fun one => (binary .mul f f).bind fun square => binary .sub one square

theorem binaryPartial (op : BinaryOp) (side : Side) (x y f : ScalarId) :
    Assembled naming looking (binaryPartial scalarAlgebra op side x y f) := by
  cases op with
  | add => exact .literal _
  | sub => cases side <;> exact .literal _
  | mul => cases side <;> exact .pure _
  | div =>
    cases side with
    | left => exact (literal _).bind fun one => binary .div one y
    | right => exact (binary .div f y).bind fun quotient => unary .neg quotient
  | pow =>
    cases side with
    | left =>
      exact (literal _).bind fun one => (binary .sub y one).bind fun exponent =>
        (binary .pow x exponent).bind fun power => binary .mul y power
    | right => exact (unary .log x).bind fun l => binary .mul f l

end Assembled

end ScalarBuilder

/-! ### Replays and sweeps -/

open ScalarBuilder

variable {naming looking : Prop}

namespace ScalarTape

variable {tape : ScalarTape} {zero : ScalarId}

theorem assembled_exec (inputs : Grid ScalarId) (free : Array ScalarId) (r : Run ScalarId)
    (i : ScalarInstr) : Assembled naming looking (exec scalarAlgebra zero inputs free r i) := by
  cases i with
  | input | free | output => exact .pure _
  | constant v => exact (Assembled.literal v).bind fun _ => .pure _
  | unary op a => exact (Assembled.unary op _).bind fun _ => .pure _
  | binary op a b => exact (Assembled.binary op _ _).bind fun _ => .pure _

theorem assembled_replay (tape : ScalarTape) (inputs : Bundle ScalarId) (free : List ScalarId)
    (counts : List Nat) : Assembled naming looking (tape.replay scalarAlgebra inputs free counts) :=
  (Assembled.literal _).bind fun _ =>
    (Assembled.foldlM (fun _ _ => assembled_exec ..) _ _).bind fun _ => .pure _

theorem assembled_contribute {partialOf : ScalarBuilder ScalarId}
    (hpartial : Assembled naming looking partialOf) (made : Option ScalarId) (t : ScalarId)
    (sum : Option ScalarId) :
    Assembled naming looking (contribute scalarAlgebra partialOf made t sum) := by
  rw [contribute]
  split
  · exact .pure _
  · refine (Assembled.onDemand hpartial).bind fun p => (Assembled.binary .mul p t).bind fun term => ?_
    split
    · exact .pure _
    · exact (Assembled.binary .add _ term).bind fun _ => .pure _

theorem assembled_forwardStep (inputs : Grid ScalarId) (free : Array ScalarId)
    (state : Run ScalarId × List (Tangent ScalarId)) (i : ScalarInstr) :
    Assembled naming looking (forwardStep scalarAlgebra zero inputs free state i) := by
  cases i with
  | input | output | free => exact .pure _
  | constant v => exact (Assembled.literal v).bind fun _ => .pure _
  | unary op a =>
    refine (Assembled.unary op _).bind fun f => ?_
    refine (Assembled.inTurn (fun made t => ?_) _ _).bind fun _ => .pure _
    exact (assembled_contribute (.unaryPartial op _ f) made _ _).bind fun _ => .pure _
  | binary op a b =>
    refine (Assembled.binary op _ _).bind fun f => ?_
    refine (Assembled.inTurn (fun made t => ?_) _ _).bind fun _ => .pure _
    exact (assembled_contribute (.binaryPartial op .left _ _ f) made.1 _ _).bind fun left =>
      (assembled_contribute (.binaryPartial op .right _ _ f) made.2 _ _).bind fun right => .pure _

theorem assembled_forward (tape : ScalarTape) (inputs : Bundle ScalarId) (free : List ScalarId)
    (seeds : List (Bundle ScalarId)) (counts : List Nat) :
    Assembled naming looking (tape.forward scalarAlgebra inputs free seeds counts) :=
  (Assembled.literal _).bind fun _ =>
    (Assembled.foldlM (fun _ _ => assembled_forwardStep ..) _ _).bind fun _ => .pure _

theorem assembled_recordStep (inputs : Grid ScalarId) (free : Array ScalarId)
    (state : Run ScalarId × List (ScalarInstr × Record ScalarId)) (i : ScalarInstr) :
    Assembled naming looking (recordStep scalarAlgebra zero inputs free state i) := by
  cases i with
  | input | output | free | constant =>
    exact (assembled_exec ..).bind fun _ => .pure _
  | unary op a => exact (Assembled.unary op _).bind fun _ => .pure _
  | binary op a b => exact (Assembled.binary op _ _).bind fun _ => .pure _

theorem assembled_add (d : Adjoint ScalarId) (slot : Nat) (term : ScalarId) :
    Assembled naming looking (d.add scalarAlgebra zero slot term) :=
  (Assembled.binary .add _ term).bind fun _ => .pure _

theorem assembled_giveBack {partialOf : ScalarBuilder ScalarId}
    (hpartial : Assembled naming looking partialOf) (made : Option ScalarId) (s : ScalarId)
    (slot : Nat) (d : Adjoint ScalarId) :
    Assembled naming looking (giveBack scalarAlgebra zero partialOf made s slot d) :=
  (Assembled.onDemand hpartial).bind fun p => (Assembled.binary .mul p s).bind fun term =>
    (assembled_add d slot term).bind fun _ => .pure _

theorem assembled_reverseStep (adjoints : List (Adjoint ScalarId))
    (entry : ScalarInstr × Record ScalarId) :
    Assembled naming looking (reverseStep scalarAlgebra zero adjoints entry) := by
  obtain ⟨i, record⟩ := entry
  cases i with
  | input | constant | free => exact .pure _
  | output i k a =>
    refine Assembled.mapM (fun d => ?_) _
    dsimp only
    split
    · exact .pure _
    · exact assembled_add ..
  | unary op a result =>
    refine Assembled.inTurn (fun made d => ?_) _ _
    rw [pullUnary]
    split
    · exact .pure _
    · exact assembled_giveBack (.unaryPartial ..) ..
  | binary op a b result =>
    refine Assembled.inTurn (fun made d => ?_) _ _
    rw [pullBinary]
    dsimp only
    split
    · exact .pure _
    · exact (assembled_giveBack (.binaryPartial op .left ..) ..).bind fun _ =>
        (assembled_giveBack (.binaryPartial op .right ..) ..).bind fun _ => .pure _

theorem assembled_reverse (tape : ScalarTape) (inputs : Bundle ScalarId) (free : List ScalarId)
    (seeds : List (Bundle ScalarId)) (inCounts outCounts : List Nat) :
    Assembled naming looking (tape.reverse scalarAlgebra inputs free seeds inCounts outCounts) :=
  (Assembled.literal _).bind fun _ =>
    (Assembled.foldlM (fun _ _ => assembled_recordStep ..) _ _).bind fun _ =>
      (Assembled.foldlM (fun _ _ => assembled_reverseStep ..) _ _).bind fun _ => .pure _

end ScalarTape

namespace MatrixTape

variable {zero : ScalarId}

theorem assembled_addTerm (sums : Array (Option ScalarId)) (r : Nat) (term : ScalarId) :
    Assembled naming looking (MatrixOp.addTerm scalarAlgebra sums r term) := by
  rw [MatrixOp.addTerm]
  split
  · exact .pure _
  · exact (Assembled.binary .add _ term).bind fun _ => .pure _

theorem assembled_run (op : MatrixOp) (inputs : Bundle ScalarId) (p : Pattern)
    (operands : Bundle ScalarId) :
    Assembled naming looking (op.run scalarAlgebra zero inputs p operands) := by
  cases op with
  | input | output | free | gather | lift => exact .pure _
  | constant values => exact .mapM (fun v => .literal v) _
  | unary op => exact .mapM (fun a => .unary op a) _
  | binary op => exact .mapM (fun _ => .binary op _ _) _
  | product left right =>
    exact (Assembled.foldlM (fun _ _ => (Assembled.binary .mul _ _).bind fun _ =>
      assembled_addTerm ..) _ _).bind fun _ => .pure _
  | scatter map =>
    refine (Assembled.foldlM (fun sums entry => ?_) _ _).bind fun _ => .pure _
    obtain ⟨target, v⟩ := entry
    cases target with
    | none => exact .pure _
    | some r => exact assembled_addTerm ..
  | call r o => exact (ScalarTape.assembled_replay ..).bind fun _ => .pure _

theorem assembled_exec (inputs : Bundle ScalarId) (r : Run ScalarId) (i : MatrixInstr) :
    Assembled naming looking (exec scalarAlgebra zero inputs r i) := by
  rw [exec]
  split
  · exact .pure _
  · exact (assembled_run ..).bind fun _ => .pure _
  · exact .pure _

theorem assembled_replay (tape : MatrixTape) (inputs : Bundle ScalarId) (count : Nat) :
    Assembled naming looking (tape.replay scalarAlgebra inputs count) :=
  (Assembled.literal _).bind fun _ =>
    (Assembled.foldlM (fun _ _ => assembled_exec ..) _ _).bind fun _ => .pure _

end MatrixTape

/-! ### Requests to functions -/

namespace ScalarFunction

variable (f : ScalarFunction) (i o : Nat)

theorem assembled_call (arguments : List (SparseMatrix ScalarId)) :
    Assembled naming True (f.call arguments) := by
  refine (Assembled.ofExcept _).bind fun tape => (Assembled.ofExcept _).bind fun _ =>
    (Assembled.get trivial).bind fun g => ?_
  have hrest : Assembled naming True (do
      let free ← .ofExcept (f.freeValues g tape)
      let outputs ← tape.replay scalarAlgebra (arrange f.inPatterns arguments .zero) free f.outSizes
      return wrap f.outPatterns outputs .zero) :=
    (Assembled.ofExcept _).bind fun _ => (ScalarTape.assembled_replay ..).bind fun _ => .pure _
  split
  · exact (Assembled.throw _).bind fun _ => hrest
  · exact hrest

theorem assembled_forwardColumns (e : Expressions) (tape : ScalarTape) (groups : List (List Nat)) :
    Assembled naming looking (f.forwardColumns e tape i o groups) :=
  (ScalarTape.assembled_forward ..).bind fun _ => .pure _

theorem assembled_reverseRows (e : Expressions) (tape : ScalarTape) (groups : List (List Nat)) :
    Assembled naming looking (f.reverseRows e tape i o groups) :=
  (ScalarTape.assembled_reverse ..).bind fun _ => .pure _

theorem assembled_jac (compact symmetric : Bool) :
    Assembled naming True (f.jac i o compact symmetric) := by
  refine (Assembled.get trivial).bind fun g => (Assembled.ofExcept _).bind fun e =>
    (Assembled.ofExcept _).bind fun tape => (Assembled.ofExcept _).bind fun p => ?_
  dsimp only
  split
  · exact (f.assembled_forwardColumns ..).bind fun _ => (Assembled.ofExcept _).bind fun _ => .pure _
  · exact (f.assembled_reverseRows ..).bind fun _ => (Assembled.ofExcept _).bind fun _ => .pure _

theorem assembled_grad : Assembled naming True (f.grad i o) := by
  refine (Assembled.get trivial).bind fun g => (Assembled.ofExcept _).bind fun e => ?_
  have hrest : Assembled naming True (do
      let tape ← .ofExcept f.tape
      let rows ← f.reverseRows e tape i o [List.range (f.outPattern o).nnz]
      return .fitted (f.inPattern i) (rows.headD []) .zero : ScalarBuilder (SparseMatrix ScalarId)) :=
    (Assembled.ofExcept _).bind fun _ => (f.assembled_reverseRows ..).bind fun _ => .pure _
  dsimp only
  split
  · exact (Assembled.throw _).bind fun _ => hrest
  · exact hrest

theorem assembled_tang : Assembled naming True (f.tang i o) := by
  refine (Assembled.get trivial).bind fun g => (Assembled.ofExcept _).bind fun e => ?_
  have hrest : Assembled naming True (do
      let tape ← .ofExcept f.tape
      let columns ← f.forwardColumns e tape i o [List.range (f.inPattern i).nnz]
      return .fitted (f.outPattern o) (columns.headD []) .zero :
        ScalarBuilder (SparseMatrix ScalarId)) :=
    (Assembled.ofExcept _).bind fun _ => (f.assembled_forwardColumns ..).bind fun _ => .pure _
  dsimp only
  split
  · exact (Assembled.throw _).bind fun _ => hrest
  · exact hrest

theorem assembled_withOutput (m : SparseMatrix ScalarId) (front : String) :
    Assembled naming True (f.withOutput m front) :=
  (Assembled.get trivial).bind fun _ => .ofExcept _

theorem assembled_hess : Assembled naming True (f.hess i o) :=
  (f.assembled_grad i o).bind fun _ => (f.assembled_withOutput ..).bind fun gradient =>
    gradient.assembled_jac ..

theorem assembled_jacobian (compact symmetric : Bool) :
    Assembled naming True (f.jacobian i o compact symmetric) :=
  (f.assembled_jac ..).bind fun _ => f.assembled_withOutput ..

end ScalarFunction

namespace MatrixFunction

variable (f : MatrixFunction)

theorem assembled_expandOn (inputs : List (SparseMatrix ScalarId)) :
    Assembled naming True (f.expandOn inputs) :=
  (Assembled.ofExcept _).bind fun _ => (Assembled.ofExcept _).bind fun _ =>
    (MatrixTape.assembled_replay ..).bind fun _ => (Assembled.get trivial).bind fun _ => .ofExcept _

theorem assembled_expand : Assembled True True f.expand :=
  (Assembled.mapM (fun _ => .symbolMatrix _ _) _).bind fun _ => f.assembled_expandOn _

theorem assembled_expandWith (symbols : List ScalarId) :
    Assembled naming True (f.expandWith symbols) := by
  rw [expandWith]
  dsimp only
  split
  · exact (Assembled.throw _).bind fun _ => f.assembled_expandOn _
  · exact f.assembled_expandOn _

end MatrixFunction

/-! ### Requests -/

/-- What a scalar graph can be asked for. Arguments may be anything, such as handles that the graph
does not have. -/
inductive ScalarRequest where
  | literal (v : Binary64)
  | symbol (name : String)
  | symbolMatrix (name : String) (p : Pattern)
  | unary (op : UnaryOp) (a : ScalarId)
  | binary (op : BinaryOp) (a b : ScalarId)
  | sum (m : SparseMatrix ScalarId)
  | unaryPartial (op : UnaryOp) (x f : ScalarId)
  | binaryPartial (op : BinaryOp) (side : Side) (x y f : ScalarId)
  | replay (tape : ScalarTape) (inputs : Bundle ScalarId) (free : List ScalarId) (counts : List Nat)
  | unroll (tape : MatrixTape) (inputs : Bundle ScalarId) (count : Nat)
  | forward (tape : ScalarTape) (inputs : Bundle ScalarId) (free : List ScalarId)
      (seeds : List (Bundle ScalarId)) (counts : List Nat)
  | reverse (tape : ScalarTape) (inputs : Bundle ScalarId) (free : List ScalarId)
      (seeds : List (Bundle ScalarId)) (inCounts outCounts : List Nat)
  | call (f : ScalarFunction) (arguments : List (SparseMatrix ScalarId))
  | jac (f : ScalarFunction) (i o : Nat) (compact symmetric : Bool)
  | grad (f : ScalarFunction) (i o : Nat)
  | tang (f : ScalarFunction) (i o : Nat)
  | hess (f : ScalarFunction) (i o : Nat)
  | jacobian (f : ScalarFunction) (i o : Nat) (compact symmetric : Bool)
  | expand (f : MatrixFunction)
  | expandWith (f : MatrixFunction) (symbols : List ScalarId)

namespace ScalarRequest

/-- Carry out a request. The results are the functions that it makes; expressions that it makes are
there to be named by anyone. -/
def run : ScalarRequest → ScalarBuilder (List ScalarFunction)
  | literal v => do let _ ← ScalarBuilder.literal v; return []
  | symbol name => do let _ ← ScalarBuilder.symbol name; return []
  | symbolMatrix name p => do let _ ← ScalarBuilder.symbolMatrix name p; return []
  | unary op a => do let _ ← ScalarBuilder.unary op a; return []
  | binary op a b => do let _ ← ScalarBuilder.binary op a b; return []
  | sum m => do let _ ← ScalarBuilder.sum m; return []
  | unaryPartial op x f => do let _ ← Fluxion.unaryPartial scalarAlgebra op x f; return []
  | binaryPartial op side x y f => do
    let _ ← Fluxion.binaryPartial scalarAlgebra op side x y f
    return []
  | replay tape inputs free counts => do
    let _ ← tape.replay scalarAlgebra inputs free counts
    return []
  | unroll tape inputs count => do let _ ← tape.replay scalarAlgebra inputs count; return []
  | forward tape inputs free seeds counts => do
    let _ ← tape.forward scalarAlgebra inputs free seeds counts
    return []
  | reverse tape inputs free seeds inCounts outCounts => do
    let _ ← tape.reverse scalarAlgebra inputs free seeds inCounts outCounts
    return []
  | call f arguments => do let _ ← f.call arguments; return []
  | jac f i o compact symmetric => do let _ ← f.jac i o compact symmetric; return []
  | grad f i o => do let _ ← f.grad i o; return []
  | tang f i o => do let _ ← f.tang i o; return []
  | hess f i o => do let _ ← f.hess i o; return []
  | jacobian f i o compact symmetric => do return [← f.jacobian i o compact symmetric]
  | expand f => do return [← f.expand]
  | expandWith f symbols => do return [← f.expandWith symbols]

/-- The graph that a request leaves, whether it succeeds or fails. -/
def after (r : ScalarRequest) (g : ScalarGraph) : ScalarGraph := r.run.after g

theorem assembled_then {α β : Type} {x : ScalarBuilder α} (hx : Assembled naming looking x)
    (f : α → β) : Assembled naming looking (do return f (← x)) :=
  hx.bind fun a => .pure (f a)

/-- **Every request is assembled from the four builders.** -/
theorem assembled_run (r : ScalarRequest) : Assembled True True r.run := by
  cases r with
  | literal v => exact assembled_then (.literal v) _
  | symbol name => exact assembled_then (.symbol name trivial) _
  | symbolMatrix name p => exact assembled_then (.symbolMatrix name p) _
  | unary op a => exact assembled_then (.unary op a) _
  | binary op a b => exact assembled_then (.binary op a b) _
  | sum m => exact assembled_then (.sum m) _
  | unaryPartial op x f => exact assembled_then (.unaryPartial op x f) _
  | binaryPartial op side x y f => exact assembled_then (.binaryPartial op side x y f) _
  | replay tape => exact assembled_then (tape.assembled_replay ..) _
  | unroll tape => exact assembled_then (tape.assembled_replay ..) _
  | forward tape => exact assembled_then (tape.assembled_forward ..) _
  | reverse tape => exact assembled_then (tape.assembled_reverse ..) _
  | call f => exact assembled_then (f.assembled_call _) _
  | jac f => exact assembled_then (f.assembled_jac ..) _
  | grad f => exact assembled_then (f.assembled_grad ..) _
  | tang f => exact assembled_then (f.assembled_tang ..) _
  | hess f => exact assembled_then (f.assembled_hess ..) _
  | jacobian f => exact assembled_then (f.assembled_jacobian ..) _
  | expand f => exact assembled_then f.assembled_expand _
  | expandWith f => exact assembled_then (f.assembled_expandWith _) _

end ScalarRequest

/-- Graphs that are there after any number of copies and requests. -/
inductive ScalarGraph.Reachable : ScalarGraph → Prop
  | new (id : GraphId) : Reachable (.new id)
  | fork {g : ScalarGraph} (id : GraphId) : Reachable g → Reachable (g.fork id)
  | request {g : ScalarGraph} (r : ScalarRequest) : Reachable g → Reachable (r.after g)

end Fluxion
