/-!
# Identities of graphs and functions

A handle is an index into one graph and means nothing in another. A function keeps handles, so it
remembers the graph that they belong to and the largest of them. A copy of a graph is a graph of its
own, but the nodes that were there when it was copied are the same in both; `Lineage` records this,
so that a function can be used with a copy as well.

Functions that are embedded into matrix expressions are told apart by identity, not by content. The
two derivative functions of a function have identities of their own, made from that of the function.

## Main definitions

* `FunctionId`, `GraphId`: identities.
* `Lineage`: the identity of a graph and of those it was copied from; `Lineage.shares` decides
  whether a stretch of handles of another graph is valid here.
* `Owner`: the graph that a function's handles belong to.
* `Registry`: identities handed out so far.
-/

namespace Fluxion

/-- The identity of a function object. -/
inductive FunctionId where
  | numbered (n : Nat)
  /-- The forward derivative function made for another one. -/
  | forward (of : FunctionId)
  /-- The reverse derivative function made for another one. -/
  | reverse (of : FunctionId)
deriving DecidableEq, Repr

/-- The identity of a graph. -/
inductive GraphId where
  | numbered (n : Nat)
  /-- The private graph of a derivative function. -/
  | standalone (of : FunctionId)
deriving DecidableEq, Repr

/-- The identity of a graph, and the graphs it was copied from, each with the number of nodes it had
when it was copied. -/
structure Lineage where
  id : GraphId
  ancestors : List (GraphId × Nat)
deriving DecidableEq, Repr

namespace Lineage

/-- A graph that is no copy. -/
def root (id : GraphId) : Lineage := ⟨id, []⟩

/-- The lineage of a copy with identity `id`, made when there were `size` nodes. -/
def fork (lineage : Lineage) (id : GraphId) (size : Nat) : Lineage :=
  ⟨id, lineage.ancestors ++ [(lineage.id, size)]⟩

/-- The handles of graph `owner` up to index `last` mean the same here. -/
def shares (lineage : Lineage) (owner : GraphId) (last : Nat) : Bool :=
  owner == lineage.id || lineage.ancestors.any fun (id, size) => id == owner && last < size

end Lineage

/-- The graph that handles belong to, and the largest index among them. -/
structure Owner where
  graph : GraphId
  last : Nat
deriving DecidableEq, Repr

/-- The graph of a lineage has the nodes that an owner's handles stand for. -/
def Lineage.sharesOwner (lineage : Lineage) (owner : Owner) : Bool :=
  lineage.shares owner.graph owner.last

theorem Lineage.sharesOwner_self (lineage : Lineage) (last : Nat) :
    lineage.sharesOwner ⟨lineage.id, last⟩ = true := by
  rw [sharesOwner, shares, BEq.rfl, Bool.true_or]

/-- Identities handed out so far, and the derivative functions that have been made. -/
structure Registry where
  graphs : Nat := 0
  functions : Nat := 0
  derived : List FunctionId := []
deriving Repr

namespace Registry

/-- A graph identity that was never handed out. -/
def freshGraph (r : Registry) : GraphId × Registry :=
  (.numbered r.graphs, { r with graphs := r.graphs + 1 })

/-- A function identity that was never handed out. -/
def freshFunction (r : Registry) : FunctionId × Registry :=
  (.numbered r.functions, { r with functions := r.functions + 1 })

/-- Note that derivative functions have been made. -/
def note (r : Registry) (made : List FunctionId) : Registry :=
  { r with derived := made.foldl (fun all id => if all.contains id then all else id :: all) r.derived }

/-- The derivative function of this identity has been made. -/
def isMade (r : Registry) (id : FunctionId) : Bool := r.derived.contains id

end Registry

end Fluxion
