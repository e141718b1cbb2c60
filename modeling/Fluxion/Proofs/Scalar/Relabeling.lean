import Fluxion.Proofs.Scalar.Requests

/-!
# Scalar graphs under another identity

The identity of a graph decides which functions may be used with it, and nothing else. A request that
does not look at the graph that it is made in adds the same nodes, and fails for the same reason, under
whatever identity. What is compiled from a graph is the same as well, so two graphs that differ in
their identity give functions that differ in the graph that they belong to.

Only requests to functions look at the graph. They are left out here, for a good reason: whether they
succeed does depend on the identity.

## Main definitions

* `ScalarGraph.under` — the same nodes under another lineage
* `ScalarBuilder.Blind` — requests that do the same under every lineage
* `ScalarFunction.under` — the same function of a graph under another lineage

## Main results

* `ScalarBuilder.Assembled.blind` — **requests that do not look at the graph do the same under every
  lineage**
* `ScalarFunction.make_under`, `Routine.standalone_under` — what is made in such graphs
-/

namespace Fluxion

variable {α β : Type} {l : Lineage}

/-! ### Nodes -/

namespace ScalarGraph

/-- The same nodes under another lineage. -/
def under (l : Lineage) (g : ScalarGraph) : ScalarGraph := { g with lineage := l }

variable {g : ScalarGraph}

theorem intern_under {n : ScalarNode} (h : ∀ a ∈ n.operands, a.index < g.nodes.size) :
    (g.under l).intern n h = ((g.intern n h).1, (g.intern n h).2.under l) := by
  simp only [intern]
  cases hfound : g.nodes.search? n.shelf (· = n) with
  | some i => simp only [under, hfound]
  | none =>
    simp only [under, hfound]
    rfl

theorem folded_under (f : Fold) (v : Binary64) :
    (g.under l).folded f v = ((g.folded f v).1, (g.folded f v).2.under l) :=
  intern_under (g := { g with folds := f :: g.folds }) _

end ScalarGraph

/-! ### Requests -/

namespace ScalarBuilder

open ScalarGraph

variable {g : ScalarGraph} {a b : ScalarId}

/-- What comes of an operation on one operand, by the node of the operand. -/
def unaryOutcome {R : Type} (op : UnaryOp) (fold : Binary64 → R) (spare : ScalarId → R) (add : R) :
    ScalarNode → R
  | .literal x => fold x
  | .unary .neg inner => if op = .neg then spare inner else add
  | _ => add

theorem unary_of_none {op : UnaryOp} (hn : g.node? a = none) :
    unary op a g = .error .outOfRange g := by
  rw [unary]
  split
  · rfl
  · rename_i m hm
    cases hn.symm.trans hm

theorem unary_of_node? {op : UnaryOp} {n : ScalarNode} (hn : g.node? a = some n)
    (ha : ∀ b ∈ (ScalarNode.unary op a).operands, b.index < g.nodes.size) :
    unary op a g = unaryOutcome op (fun x => ofAdd (·.folded (.unary op x) (op.apply x)) g)
      (fun e => .ok e g) (.ok (g.intern (.unary op a) ha).1 (g.intern (.unary op a) ha).2) n := by
  rw [unary]
  split
  · rename_i hn'
    cases hn.symm.trans hn'
  · rename_i m hm
    obtain rfl : n = m := Option.some.inj (hn.symm.trans hm)
    cases n with
    | literal | symbol | binary => rfl
    | unary inner _ => cases inner <;> cases op <;> rfl

theorem binary_of_none {op : BinaryOp} (hn : g.node? a = none ∨ g.node? b = none) :
    binary op a b g = .error .outOfRange g := by
  rw [binary]
  split
  · rename_i na nb hna hnb
    rcases hn with hn | hn
    · cases hn.symm.trans hna
    · cases hn.symm.trans hnb
  · rfl

theorem binary_of_node? {op : BinaryOp} {na nb : ScalarNode} (hna : g.node? a = some na)
    (hnb : g.node? b = some nb)
    (hab : ∀ c ∈ (ScalarNode.binary op a b).operands, c.index < g.nodes.size) :
    binary op a b g =
      match na.literal?, nb.literal? with
      | some x, some y => ofAdd (·.folded (.binary op x y) (op.apply x y)) g
      | _, _ =>
        match shortcut op a b with
        | some (.same e) => .ok e g
        | some (.negated e) => unary .neg e g
        | none => .ok (g.intern (.binary op a b) hab).1 (g.intern (.binary op a b) hab).2 := by
  rw [binary]
  split
  · rename_i ma mb hma hmb
    obtain rfl : na = ma := Option.some.inj (hna.symm.trans hma)
    obtain rfl : nb = mb := Option.some.inj (hnb.symm.trans hmb)
    rfl
  · rename_i hnone
    exact (hnone na nb hna hnb).elim

/-- What a request leaves, under another lineage. -/
def resultUnder (l : Lineage) :
    EStateM.Result Error ScalarGraph α → EStateM.Result Error ScalarGraph α
  | .ok a g => .ok a (g.under l)
  | .error e g => .error e (g.under l)

/-- The request does the same under every lineage. -/
def Blind (x : ScalarBuilder α) : Prop := ∀ l g, x (g.under l) = resultUnder l (x g)

theorem ofAdd_under (g : ScalarGraph) {step : ScalarGraph → α × ScalarGraph}
    (h : step (g.under l) = ((step g).1, (step g).2.under l)) :
    ofAdd step (g.under l) = resultUnder l (ofAdd step g) := by
  rw [ofAdd, h]
  rfl

theorem blind_literal (v : Binary64) : Blind (literal v) :=
  fun _ g => ofAdd_under g (intern_under _)

theorem blind_unary (op : UnaryOp) (a : ScalarId) : Blind (unary op a) := by
  intro l g
  cases hn : g.node? a with
  | none =>
    rw [unary_of_none hn, unary_of_none (g := g.under l) hn]
    rfl
  | some n =>
    have ha : ∀ b ∈ (ScalarNode.unary op a).operands, b.index < g.nodes.size := by
      intro b hb
      obtain rfl := List.mem_singleton.mp hb
      exact index_lt_of_node? hn
    rw [unary_of_node? hn ha, unary_of_node? (g := g.under l) hn ha, intern_under ha,
      unaryOutcome.eq_def, unaryOutcome.eq_def]
    split
    · exact ofAdd_under g (folded_under ..)
    · split <;> rfl
    · rfl

theorem blind_binary (op : BinaryOp) (a b : ScalarId) : Blind (binary op a b) := by
  intro l g
  cases hna : g.node? a with
  | none =>
    rw [binary_of_none (.inl hna), binary_of_none (g := g.under l) (.inl hna)]
    rfl
  | some na =>
    cases hnb : g.node? b with
    | none =>
      rw [binary_of_none (.inr hnb), binary_of_none (g := g.under l) (.inr hnb)]
      rfl
    | some nb =>
      have hab : ∀ c ∈ (ScalarNode.binary op a b).operands, c.index < g.nodes.size := by
        intro c hc
        rw [ScalarNode.operands, List.mem_cons, List.mem_singleton] at hc
        rcases hc with rfl | rfl
        · exact index_lt_of_node? hna
        · exact index_lt_of_node? hnb
      rw [binary_of_node? hna hnb hab, binary_of_node? (g := g.under l) hna hnb hab]
      split
      · exact ofAdd_under g (folded_under ..)
      · split
        · rfl
        · exact blind_unary .neg _ l g
        · rw [intern_under hab]
          rfl

/-- **Requests that do not look at the graph do the same under every lineage.** -/
theorem Assembled.blind {naming : Prop} {x : ScalarBuilder α} (hx : Assembled naming False x) :
    Blind x := by
  induction hx with
  | pure _ | throw _ | symbol _ _ => exact fun _ _ => rfl
  | get h => exact h.elim
  | literal v => exact blind_literal v
  | unary op a => exact blind_unary op a
  | binary op a b => exact blind_binary op a b
  | @bind α β x f _ _ ihx ihf =>
    intro l g
    simp only [Bind.bind, EStateM.bind]
    rw [ihx l g]
    cases x g with
    | ok a h => exact ihf a l h
    | error e h => rfl

end ScalarBuilder

/-! ### Functions -/

namespace ScalarTape

variable (l : Lineage) (g : ScalarGraph)

theorem checkInputs_under (seen : NumberSet) (inputs : List Place) :
    checkInputs (g.under l) seen inputs = checkInputs g seen inputs := by
  induction inputs generalizing seen with
  | nil => rfl
  | cons p rest ih =>
    rw [checkInputs, checkInputs]
    simp only [ih]
    rfl

theorem compile_under (inputs outputs : List (SparseMatrix ScalarId)) :
    compile (g.under l) inputs outputs = compile g inputs outputs := by
  rw [compile, compile]
  simp only [checkInputs_under]
  rfl

end ScalarTape

namespace ScalarFunction

/-- The same expressions of a graph under another lineage. -/
def Expressions.under (l : Lineage) (e : Expressions) : Expressions :=
  { e with home := e.home.map (·.under l) }

/-- The same stage of a function of a graph under another lineage. -/
def Stage.under (l : Lineage) : Stage → Stage
  | declared e => declared (e.under l)
  | initialized e tape => initialized (e.under l) tape
  | cleared tape => cleared tape

/-- The same function of a graph under another lineage. -/
def under (l : Lineage) (f : ScalarFunction) : ScalarFunction :=
  { f with owner := ⟨l.id, f.owner.last⟩, stage := f.stage.under l }

variable {f : ScalarFunction} {g : ScalarGraph} {inputs outputs : List (SparseMatrix ScalarId)}
  {options : FunctionOptions}

@[simp] theorem Stage.tape?_under (stage : Stage) : (stage.under l).tape? = stage.tape? := by
  cases stage <;> rfl

theorem make_under : make (g.under l) inputs outputs options
    = (make g inputs outputs options).map (under l) := by
  have hsame : (g.under l).unknown? (handlesOf (inputs ++ outputs))
    = g.unknown? (handlesOf (inputs ++ outputs)) := rfl
  rw [make, make, declare, declare, hsame]
  cases g.unknown? (handlesOf (inputs ++ outputs)) with
  | some e => rfl
  | none =>
    simp only [bind, Except.bind, init, checkGraph, livesIn, Lineage.sharesOwner_self, if_true,
      ScalarTape.compile_under]
    cases ScalarTape.compile g inputs outputs <;> rfl

theorem settle_under (f : ScalarFunction) (g : ScalarGraph) :
    (f.under l).settle (g.under l) = (f.settle g).under l := by
  obtain ⟨_, _, _, _, stage⟩ := f
  cases stage <;> rfl

end ScalarFunction

namespace Routine

theorem standalone_under (r : Routine) {id id' : FunctionId} {front : String}
    {build : ScalarBuilder (List (SparseMatrix ScalarId) × List (SparseMatrix ScalarId))}
    (hbuild : build.Blind) :
    r.standalone id' front build
      = (r.standalone id front build).map (·.under (.root (.standalone id'))) := by
  have hrun := hbuild (.root (.standalone id')) (.new (.standalone id))
  have hnew : ScalarGraph.new (.standalone id')
    = (ScalarGraph.new (.standalone id)).under (.root (.standalone id')) := rfl
  rw [standalone, standalone, hnew, hrun]
  cases build (.new (.standalone id)) with
  | error e h => rfl
  | ok matrices h =>
    obtain ⟨inputs, outputs⟩ := matrices
    show (ScalarFunction.make (h.under _) inputs outputs _ >>= _) = (_ >>= _ : Except Error _).map _
    rw [ScalarFunction.make_under]
    cases ScalarFunction.make h inputs outputs (r.options.derived front) with
    | error e => rfl
    | ok f => exact congrArg Except.ok (ScalarFunction.settle_under f h)

end Routine

end Fluxion
