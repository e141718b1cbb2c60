import Fluxion.Expression.Pool
import Fluxion.Function.Routine
import Fluxion.Schedule.Postorder

/-!
# The matrix expression graph

A matrix expression is a node of a graph, and its handle is the index of the node. A few kinds of
nodes suffice: elementwise operations and the matrix product compute, a gather copies nonzeros to
other places, and a scatter adds nonzeros up at other places. Transposition, blocks, projection and
repetition are gathers; a sum is a scatter.

An embedded call stands for one output of a routine. A lift is a value that is marked as an unknown
of an equation, with a guess for it; it evaluates to the value.

Matrix expressions are interned like scalar ones, and each has a pattern that is known when it is
built. Operands come before their readers, which is part of the type. This module holds the graph
and the step that adds a node; the builders, which choose nodes and their patterns, are in
`Fluxion.Expression.MatrixBuilder`.

Handles, serial numbers and the numbers of arguments and nonzeros in the map of a gather or a scatter
are natural numbers and do not wrap. Where they are words of 32 bits, all that is said here is meant of
graphs with fewer than `2 ^ 32` nodes, on patterns with fewer than `2 ^ 32` nonzeros.

## Main definitions

* `MatrixId`, `MatrixNode`: handles and nodes.
* `MatrixNode.operands`, `MatrixNode.valueOperands`: all operands, and those that the value needs.
* `MatrixNode.mapOperands`: the same node with other operands.
* `MatrixGraph`: the graph; `MatrixGraph.new`, `MatrixGraph.fork`.
* `MatrixGraph.reachable`: what an expression is built from.
* `MatrixBuilder`: requests that add nodes; what was added before a failure stays.
* `MatrixBuilder.intern`: a node, new or not.
* `MatrixBuilder.patternOf`: the pattern of an expression.
-/

namespace Fluxion

/-! ### Nodes -/

/-- A handle of a matrix graph. -/
structure MatrixId where
  index : Nat
deriving DecidableEq, Repr

/-- Where the values of a gather come from: for each nonzero of the result, the number of an
argument and a nonzero of it, or nothing for zero. -/
abbrev GatherMap := List (Option (Nat × Nat))

/-- Where the values of a scatter go: for each nonzero of the argument, the nonzero of the result
that it is added to, if any. -/
abbrev ScatterMap := List (Option Nat)

/-- A node of a matrix graph. -/
inductive MatrixNode where
  /-- The symbol that was made as number `serial`. -/
  | symbol (serial : Nat) (pattern : Pattern)
  | constant (value : SparseMatrix Binary64)
  /-- An operation on each nonzero. -/
  | unary (op : UnaryOp) (a : MatrixId)
  /-- An operation on each pair of nonzeros; an operand with one nonzero is repeated. -/
  | binary (op : BinaryOp) (a b : MatrixId)
  /-- The matrix product. -/
  | product (a b : MatrixId)
  | gather (arguments : List MatrixId) (map : GatherMap) (pattern : Pattern)
  | scatter (argument : MatrixId) (map : ScatterMap) (pattern : Pattern)
  /-- Output `output` of a routine. -/
  | call (routine : Routine) (arguments : List MatrixId) (output : Nat)
  /-- A value that is marked as an unknown, and a guess for it. -/
  | lift (value guess : MatrixId)
deriving DecidableEq

namespace MatrixNode

/-- All operands from left to right. -/
def operands : MatrixNode → List MatrixId
  | symbol .. | constant _ => []
  | unary _ a => [a]
  | binary _ a b | product a b => [a, b]
  | gather arguments .. | call _ arguments _ => arguments
  | scatter argument .. => [argument]
  | lift value guess => [value, guess]

/-- The operands that the value needs. The guess of a lift is not among them. -/
def valueOperands : MatrixNode → List MatrixId
  | lift value _ => [value]
  | n => n.operands

/-- The node with a function applied to each operand. -/
def mapOperands (f : MatrixId → MatrixId) : MatrixNode → MatrixNode
  | symbol serial pattern => symbol serial pattern
  | constant value => constant value
  | unary op a => unary op (f a)
  | binary op a b => binary op (f a) (f b)
  | product a b => product (f a) (f b)
  | gather arguments map pattern => gather (arguments.map f) map pattern
  | scatter argument map pattern => scatter (f argument) map pattern
  | call routine arguments output => call routine (arguments.map f) output
  | lift value guess => lift (f value) (f guess)

/-- The nonzero that a rearrangement takes or fills first. -/
def firstPlace : MatrixNode → Nat
  | gather _ map _ => (map.findSome? id).elim 0 Prod.snd
  | scatter _ map _ => map.findIdx Option.isSome
  | _ => 0

/-- Where a node is kept: constants and symbols apart, and the others by the latest of their
operands and by the place where they begin, which few other nodes share. -/
def shelf : MatrixNode → Nat
  | constant _ => 0
  | symbol .. => 1
  | n => n.operands.foldr (fun a latest => max a.index latest) 0 + n.firstPlace + 2

/-- The node is a symbol. -/
def isSymbol : MatrixNode → Bool
  | symbol .. => true
  | _ => false

/-- The value of a constant. -/
def constant? : MatrixNode → Option (SparseMatrix Binary64)
  | constant value => some value
  | _ => none

theorem valueOperands_subset (n : MatrixNode) : n.valueOperands ⊆ n.operands := by
  cases n <;> simp [valueOperands, operands]

end MatrixNode

/-! ### The graph -/

/-- A node and the pattern of its value. -/
structure MatrixEntry where
  node : MatrixNode
  pattern : Pattern

/-- Where an entry is kept. -/
def MatrixEntry.shelf (e : MatrixEntry) : Nat := e.node.shelf

/-- Interned matrix expressions. -/
structure MatrixGraph where
  lineage : Lineage
  entries : Pool MatrixEntry MatrixEntry.shelf
  /-- The names of the symbols, by the order in which they were made. -/
  names : Array String
  /-- The constants folded so far, the last first. -/
  folds : List Fold
  /-- The derivative functions that sweeps in this graph have asked for, the last first. -/
  derived : List FunctionId
  /-- Operands come before their readers. -/
  ordered : ∀ (i : Nat) (e : MatrixEntry), entries.items[i]? = some e →
    ∀ a ∈ e.node.operands, a.index < i

namespace MatrixGraph

/-- A graph without nodes. -/
def new (id : GraphId) : MatrixGraph where
  lineage := .root id
  entries := .empty
  names := #[]
  folds := []
  derived := []
  ordered := by simp [Pool.empty]

/-- A copy with an identity of its own, which shares the nodes that are there now. -/
def fork (g : MatrixGraph) (id : GraphId) : MatrixGraph :=
  { g with lineage := g.lineage.fork id g.entries.size }

/-- The number of nodes. -/
def size (g : MatrixGraph) : Nat := g.entries.size

/-- The node of a handle. -/
def node? (g : MatrixGraph) (e : MatrixId) : Option MatrixNode :=
  g.entries.items[e.index]?.map MatrixEntry.node

/-- The pattern of a handle. -/
def pattern? (g : MatrixGraph) (e : MatrixId) : Option Pattern :=
  g.entries.items[e.index]?.map MatrixEntry.pattern

/-- The operands of a handle, none if the graph does not have it. -/
def operands (g : MatrixGraph) (e : MatrixId) : List MatrixId :=
  (g.node? e).elim [] MatrixNode.operands

/-- The operands that the value of a handle needs. -/
def valueOperands (g : MatrixGraph) (e : MatrixId) : List MatrixId :=
  (g.node? e).elim [] MatrixNode.valueOperands

/-- The operands by number. -/
def operandNumbers (g : MatrixGraph) (i : Nat) : List Nat := (g.operands ⟨i⟩).map MatrixId.index

/-- The operands that the value needs, by number. -/
def valueOperandNumbers (g : MatrixGraph) (i : Nat) : List Nat :=
  (g.valueOperands ⟨i⟩).map MatrixId.index

/-- The first of several handles that the graph does not have. -/
def unknown? (g : MatrixGraph) (es : List MatrixId) : Option MatrixId :=
  es.find? fun e => (g.node? e).isNone

/-- The handle is one of the graph's symbols. -/
def isSymbol (g : MatrixGraph) (e : MatrixId) : Bool := (g.node? e).any MatrixNode.isSymbol

/-- The name of a symbol. -/
def name? (g : MatrixGraph) (e : MatrixId) : Option String :=
  match g.node? e with
  | some (.symbol serial _) => g.names[serial]?
  | _ => none

/-- The value of a constant. -/
def constant? (g : MatrixGraph) (e : MatrixId) : Option (SparseMatrix Binary64) :=
  (g.node? e).bind MatrixNode.constant?

/-- The expressions that an expression is built from, itself included, by index. Only an expression
of the graph can be asked for. -/
def reachable (g : MatrixGraph) (e : MatrixId) : Except Error (List MatrixId) :=
  match g.node? e with
  | none => .error .outOfRange
  | some _ =>
    let steps := Postorder.stepBound g.operandNumbers g.size
    let met := (Postorder.visit g.operandNumbers steps .empty e.index).1
    .ok (((List.range g.size).filter met.contains).map MatrixId.mk)

/-- Add a node, whether it is there already or not. -/
def push (g : MatrixGraph) (e : MatrixEntry)
    (h : ∀ a ∈ e.node.operands, a.index < g.entries.size) : MatrixGraph :=
  { g with
    entries := g.entries.push e
    ordered := by
      intro i k hk a ha
      rw [Pool.push, Array.getElem?_push] at hk
      split at hk
      · rename_i hi
        cases hk
        rw [hi]
        exact h a ha
      · exact g.ordered i k hk a ha }

/-- The handle of a node, which is added with the given pattern if it is not there yet. -/
def intern (g : MatrixGraph) (e : MatrixEntry)
    (h : ∀ a ∈ e.node.operands, a.index < g.entries.size) : MatrixId × MatrixGraph :=
  match g.entries.search? e.shelf (·.node = e.node) with
  | some i => (⟨i⟩, g)
  | none => (⟨g.entries.size⟩, g.push e h)

end MatrixGraph

/-! ### Requests -/

/-- Requests that add nodes to a matrix graph. If one fails, what it added before stays. -/
abbrev MatrixBuilder := EStateM Error MatrixGraph

namespace MatrixBuilder

/-- A result that needs no node. -/
def ofExcept {α : Type} : Except Error α → MatrixBuilder α
  | .ok a => pure a
  | .error e => throw e

/-- The pattern of an expression of the graph. -/
def patternOf (e : MatrixId) : MatrixBuilder Pattern := do
  match (← get).pattern? e with
  | some p => return p
  | none => throw .outOfRange

/-- The node of an expression of the graph. -/
def nodeOf (e : MatrixId) : MatrixBuilder MatrixNode := do
  match (← get).node? e with
  | some n => return n
  | none => throw .outOfRange

/-- The handle of a node, which is added with the given pattern if it is not there yet. The graph
must have its operands. -/
def intern (n : MatrixNode) (p : Pattern) : MatrixBuilder MatrixId := fun g =>
  if h : ∀ a ∈ n.operands, a.index < g.entries.size then
    let (e, g) := g.intern ⟨n, p⟩ h
    .ok e g
  else .error .outOfRange g

/-- A new symbol on a pattern. Every request makes another one, whatever its name. -/
def symbol (name : String) (p : Pattern) : MatrixBuilder MatrixId := do
  let serial := (← get).names.size
  modify fun g => { g with names := g.names.push name }
  intern (.symbol serial p) p

/-- Remember operations that were carried out on constants. -/
def rememberFolds (folds : List Fold) : MatrixBuilder Unit :=
  modify fun g => { g with folds := folds.reverse ++ g.folds }

/-- Remember that a derivative function was asked for. -/
def rememberDerived (id : FunctionId) : MatrixBuilder Unit :=
  modify fun g => { g with derived := id :: g.derived }

end MatrixBuilder

end Fluxion
