import Fluxion.Table

/-!
# Operands before readers

Nodes of an acyclic graph are numbered, and they are listed so that each one comes after its
children. The walk is depth-first, children are taken from left to right, and a node is listed when
all its children are. Roots are walked one at a time; what an earlier root has listed is not listed
again.

The walk keeps its own stack, so its depth is not bounded by that of the program that runs it.

## Main definitions

* `Postorder.walk`: the walk from a stack of open nodes.
* `Postorder.stepBound`: a number of steps after which every walk is over.
* `Postorder.visit`, `Postorder.visitAll`: the nodes that a root adds, or each of several roots.
-/

namespace Fluxion.Postorder

/-- A node whose children are not all listed, with those still to be looked at. -/
structure Frame where
  node : Nat
  waiting : List Nat

/-- Go on from a stack of open nodes, given the nodes seen so far and those listed so far, the last
first. One step closes a node or looks at one child. -/
def walk (children : Nat → List Nat) :
    Nat → List Frame → NumberSet → List Nat → NumberSet × List Nat
  | 0, _, seen, listed => (seen, listed)
  | _ + 1, [], seen, listed => (seen, listed)
  | steps + 1, ⟨node, []⟩ :: stack, seen, listed => walk children steps stack seen (node :: listed)
  | steps + 1, ⟨node, child :: rest⟩ :: stack, seen, listed =>
    if seen.contains child then walk children steps (⟨node, rest⟩ :: stack) seen listed
    else
      walk children steps (⟨child, children child⟩ :: ⟨node, rest⟩ :: stack) (seen.insert child)
        listed

/-- Enough steps to open and close every node below `size` once. -/
def stepBound (children : Nat → List Nat) (size : Nat) : Nat :=
  (List.range size).foldr (fun n steps => (children n).length + 1 + steps) 0

/-- Where no node has more than `degree` children, the bound can be had without looking at them. -/
theorem stepBound_le {children : Nat → List Nat} {degree : Nat}
    (h : ∀ n, (children n).length ≤ degree) (size : Nat) :
    stepBound children size ≤ (degree + 1) * size := by
  have general : ∀ nodes : List Nat,
      nodes.foldr (fun n steps => (children n).length + 1 + steps) 0
        ≤ (degree + 1) * nodes.length := by
    intro nodes
    induction nodes with
    | nil => simp
    | cons n rest ih =>
      have := h n
      rw [List.foldr_cons, List.length_cons, Nat.mul_succ]
      omega
  simpa [stepBound] using general (List.range size)

/-- Walk from a root, for at most a number of steps, where `seen` are the nodes met before. The
result is what has been met afterwards, and the nodes that the root adds, in order. -/
def visit (children : Nat → List Nat) (steps : Nat) (seen : NumberSet) (root : Nat) :
    NumberSet × List Nat :=
  if seen.contains root then (seen, [])
  else
    let (seen, listed) := walk children steps [⟨root, children root⟩] (seen.insert root) []
    (seen, listed.reverse)

/-- Walk from several roots in turn, and keep apart what each one adds. -/
def visitAll (children : Nat → List Nat) (steps : Nat) (seen : NumberSet) :
    List Nat → List (Nat × List Nat)
  | [] => []
  | root :: rest =>
    let (seen, added) := visit children steps seen root
    (root, added) :: visitAll children steps seen rest

end Fluxion.Postorder
