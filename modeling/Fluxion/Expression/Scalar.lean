import Fluxion.Algebra
import Fluxion.Error
import Fluxion.Expression.Pool
import Fluxion.Identity
import Fluxion.SparseMatrix

/-!
# The scalar expression graph

Scalar expressions are nodes of a graph, and a handle is the index of a node. Nodes are interned:
asking for a node that is there already returns the one that is there. The builders also fold
literals and leave out what has no effect, so that derivatives do not fill the graph with zeros.

Nodes are only ever added, and every operand comes before its reader; the latter is part of the
type, so recursion over operands ends. A builder that is given a handle the graph does not have
fails, and leaves the graph as it was.

Folding a constant is the one step that is not exact, since it rounds. So the graph remembers what
it has folded, and whether a reading of the graph in exact numbers is right can be judged by this
record.

Handles and the serial numbers of symbols are natural numbers and do not wrap. Where they are words of
32 bits, all that is said here is meant of graphs with fewer than `2 ^ 32` nodes.

## Main definitions

* `ScalarId`, `ScalarNode`: handles and nodes.
* `ScalarGraph`: the graph; `ScalarGraph.new`, `ScalarGraph.fork`.
* `ScalarGraph.intern`: a node, new or not.
* `shortcut`: the operations that are left out.
* `ScalarBuilder`: requests that add nodes; what was added before a failure stays.
* `ScalarBuilder.symbol`, `ScalarBuilder.literal`, `ScalarBuilder.unary`, `ScalarBuilder.binary`:
  builders.
* `scalarAlgebra`: expressions as an algebra.
-/

namespace Fluxion

/-- A handle of a scalar graph. -/
structure ScalarId where
  index : Nat
deriving DecidableEq, Repr

instance : EntrySize ScalarId := ⟨4⟩

namespace ScalarId

/-- The literal 0, in every graph. -/
def zero : ScalarId := ⟨0⟩

/-- The literal 1, in every graph. -/
def one : ScalarId := ⟨1⟩

/-- The literal 2, in every graph. -/
def two : ScalarId := ⟨2⟩

end ScalarId

/-- A node of a scalar graph. Literals are told apart by their bits, so 0 and -0 are two. -/
inductive ScalarNode where
  /-- The symbol that was made as number `serial`. -/
  | symbol (serial : Nat)
  | literal (value : Binary64)
  | unary (op : UnaryOp) (a : ScalarId)
  | binary (op : BinaryOp) (a b : ScalarId)
deriving DecidableEq, Repr

namespace ScalarNode

/-- The operands from left to right. -/
def operands : ScalarNode → List ScalarId
  | symbol _ | literal _ => []
  | unary _ a => [a]
  | binary _ a b => [a, b]

/-- Where a node is kept: literals and symbols apart, and operations by the later of their
operands, which few other nodes read. -/
def shelf : ScalarNode → Nat
  | literal _ => 0
  | symbol _ => 1
  | unary _ a => a.index + 2
  | binary _ a b => max a.index b.index + 2

/-- The node is a symbol. -/
def isSymbol : ScalarNode → Bool
  | symbol _ => true
  | _ => false

/-- The value of a literal. -/
def literal? : ScalarNode → Option Binary64
  | literal v => some v
  | _ => none

end ScalarNode

/-- An operation that was carried out on constants. -/
inductive Fold where
  | unary (op : UnaryOp) (x : Binary64)
  | binary (op : BinaryOp) (x y : Binary64)
deriving DecidableEq, Repr

/-- Interned scalar expressions. -/
structure ScalarGraph where
  lineage : Lineage
  nodes : Pool ScalarNode ScalarNode.shelf
  /-- The names of the symbols, by the order in which they were made. -/
  names : Array String
  /-- The constants folded so far, the last first. -/
  folds : List Fold
  /-- Operands come before their readers. -/
  ordered : ∀ (i : Nat) (n : ScalarNode), nodes.items[i]? = some n → ∀ a ∈ n.operands, a.index < i

namespace ScalarGraph

/-- A graph that holds the literals 0, 1 and 2. -/
def new (id : GraphId) : ScalarGraph where
  lineage := .root id
  nodes := ((Pool.empty.push (.literal 0.0)).push (.literal 1.0)).push (.literal 2.0)
  names := #[]
  folds := []
  ordered := by
    intro i n h a ha
    obtain ⟨hi, rfl⟩ := Array.getElem?_eq_some_iff.mp h
    match i, hi with
    | 0, _ => simp [ScalarNode.operands, Pool.push, Pool.empty] at ha
    | 1, _ => simp [ScalarNode.operands, Pool.push, Pool.empty] at ha
    | 2, _ => simp [ScalarNode.operands, Pool.push, Pool.empty] at ha

/-- A copy with an identity of its own, which shares the nodes that are there now. -/
def fork (g : ScalarGraph) (id : GraphId) : ScalarGraph :=
  { g with lineage := g.lineage.fork id g.nodes.size }

/-- The number of nodes. -/
def size (g : ScalarGraph) : Nat := g.nodes.size

/-- The node of a handle. -/
def node? (g : ScalarGraph) (e : ScalarId) : Option ScalarNode := g.nodes.items[e.index]?

/-- The operands of a handle, none if the graph does not have it. -/
def operands (g : ScalarGraph) (e : ScalarId) : List ScalarId :=
  (g.node? e).elim [] ScalarNode.operands

/-- The operands by number. -/
def operandNumbers (g : ScalarGraph) (i : Nat) : List Nat := (g.operands ⟨i⟩).map ScalarId.index

/-- The handle is one of the graph's symbols. -/
def isSymbol (g : ScalarGraph) (e : ScalarId) : Bool := (g.node? e).any ScalarNode.isSymbol

/-- The name of a symbol. -/
def name? (g : ScalarGraph) (e : ScalarId) : Option String :=
  match g.node? e with
  | some (.symbol serial) => g.names[serial]?
  | _ => none

/-- The first of several handles that the graph does not have. -/
def unknown? (g : ScalarGraph) (es : List ScalarId) : Option ScalarId :=
  es.find? fun e => (g.node? e).isNone

/-- The value of a literal. -/
def literal? (g : ScalarGraph) (e : ScalarId) : Option Binary64 := (g.node? e).bind (·.literal?)

/-! ### Adding nodes -/

/-- Add a node, whether it is there already or not. -/
def push (g : ScalarGraph) (n : ScalarNode) (h : ∀ a ∈ n.operands, a.index < g.nodes.size) :
    ScalarGraph :=
  { g with
    nodes := g.nodes.push n
    ordered := by
      intro i k hk a ha
      rw [Pool.push, Array.getElem?_push] at hk
      split at hk
      · rename_i hi
        cases hk
        rw [hi]
        exact h a ha
      · exact g.ordered i k hk a ha }

/-- The handle of a node, which is added if it is not there yet. -/
def intern (g : ScalarGraph) (n : ScalarNode) (h : ∀ a ∈ n.operands, a.index < g.nodes.size) :
    ScalarId × ScalarGraph :=
  match g.nodes.search? n.shelf (· = n) with
  | some i => (⟨i⟩, g)
  | none => (⟨g.nodes.size⟩, g.push n h)

/-- A literal. -/
def literal (g : ScalarGraph) (v : Binary64) : ScalarId × ScalarGraph :=
  g.intern (.literal v) (by simp [ScalarNode.operands])

/-- A symbol. Every request makes another one, whatever its name. -/
def symbol (g : ScalarGraph) (name : String) : ScalarId × ScalarGraph :=
  let serial := g.names.size
  let g := { g with names := g.names.push name }
  (⟨g.nodes.size⟩, g.push (.symbol serial) (by simp [ScalarNode.operands]))

/-- A literal that results from an operation on constants. -/
def folded (g : ScalarGraph) (f : Fold) (v : Binary64) : ScalarId × ScalarGraph :=
  { g with folds := f :: g.folds }.literal v

theorem index_lt_of_node? {g : ScalarGraph} {e : ScalarId} {n : ScalarNode}
    (h : g.node? e = some n) : e.index < g.nodes.size :=
  (Array.getElem?_eq_some_iff.mp h).1

end ScalarGraph

/-- What stands for an operation that has no effect. -/
inductive Shortcut where
  /-- The operation is this expression. -/
  | same (e : ScalarId)
  /-- The operation is the negative of this expression. -/
  | negated (e : ScalarId)
deriving DecidableEq, Repr

/-- Operations on two operands that are left out: those with a zero or a one on a side where it
decides the result, and the difference of an expression and itself. The rules are tried in order. -/
def shortcut (op : BinaryOp) (a b : ScalarId) : Option Shortcut :=
  match op with
  | .add => if a = .zero then some (.same b) else if b = .zero then some (.same a) else none
  | .sub =>
    if b = .zero then some (.same a)
    else if a = .zero then some (.negated b)
    else if a = b then some (.same .zero)
    else none
  | .mul =>
    if a = .zero ∨ b = .zero then some (.same .zero)
    else if a = .one then some (.same b)
    else if b = .one then some (.same a)
    else none
  | .div => if a = .zero then some (.same .zero) else if b = .one then some (.same a) else none
  | .pow => if b = .one then some (.same a) else if b = .zero then some (.same .one) else none

/-! ### Requests -/

/-- Requests that add nodes to a scalar graph. If one fails, what it added before stays. -/
abbrev ScalarBuilder := EStateM Error ScalarGraph

namespace ScalarBuilder

/-- A step that cannot fail. -/
def ofAdd {α : Type} (step : ScalarGraph → α × ScalarGraph) : ScalarBuilder α :=
  fun g => let (a, g) := step g; .ok a g

/-- A result that needs no node. -/
def ofExcept {α : Type} : Except Error α → ScalarBuilder α
  | .ok a => pure a
  | .error e => throw e

/-- A literal. -/
def literal (v : Binary64) : ScalarBuilder ScalarId := ofAdd (·.literal v)

/-- A new symbol. -/
def symbol (name : String) : ScalarBuilder ScalarId := ofAdd (·.symbol name)

/-- An operation on one operand. A literal is folded, and the negative of a negative is the operand
itself. -/
def unary (op : UnaryOp) (a : ScalarId) : ScalarBuilder ScalarId := fun g =>
  match h : g.node? a with
  | none => .error .outOfRange g
  | some n =>
    match n, op with
    | .literal x, op => ofAdd (·.folded (.unary op x) (op.apply x)) g
    | .unary .neg inner, .neg => .ok inner g
    | _, op =>
      let (e, g) := g.intern (.unary op a) (by
        intro b hb
        rw [ScalarNode.operands, List.mem_singleton] at hb
        rw [hb]
        exact ScalarGraph.index_lt_of_node? h)
      .ok e g

/-- An operation on two operands. Two literals are folded, and a shortcut is taken where there is
one. Both operands are looked at first. -/
def binary (op : BinaryOp) (a b : ScalarId) : ScalarBuilder ScalarId := fun g =>
  match ha : g.node? a, hb : g.node? b with
  | some na, some nb =>
    match na.literal?, nb.literal? with
    | some x, some y => ofAdd (·.folded (.binary op x y) (op.apply x y)) g
    | _, _ =>
      match shortcut op a b with
      | some (.same e) => .ok e g
      | some (.negated e) => unary .neg e g
      | none =>
        let (e, g) := g.intern (.binary op a b) (by
          intro c hc
          rw [ScalarNode.operands, List.mem_cons, List.mem_singleton] at hc
          rcases hc with rfl | rfl
          · exact ScalarGraph.index_lt_of_node? ha
          · exact ScalarGraph.index_lt_of_node? hb)
        .ok e g
  | _, _ => .error .outOfRange g

/-- New symbols on a pattern, named after their matrix and numbered in storage order. -/
def symbolMatrix (name : String) (pattern : Pattern) : ScalarBuilder (SparseMatrix ScalarId) := do
  let ids ← (List.range pattern.nnz).mapM fun k => symbol (name ++ "_" ++ toString k)
  return .fitted pattern ids .zero

/-- The sum of all values of a matrix. -/
def sum (m : SparseMatrix ScalarId) : ScalarBuilder ScalarId :=
  m.values.foldlM (binary .add) .zero

end ScalarBuilder

/-- Expressions of a graph. The literal 0 is the one expression that is known to be zero. -/
def scalarAlgebra : Algebra ScalarBuilder ScalarId where
  constant := .literal
  unary := .unary
  binary := .binary
  isZero := (· == .zero)

end Fluxion
