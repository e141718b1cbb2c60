import Fluxion.Schedule.Postorder
import Fluxion.Schedule.Slots

/-!
# Schedules

A straight-line program computes nodes of an acyclic graph, which are numbered, and stores some of
them as results. The results are treated in order: what a result needs and no earlier one has needed
is computed, each node after its operands, and then the result is stored.

## Main definitions

* `Step`: compute a node, or store a root.
* `Schedule.steps`: the steps for a list of roots.
* `Schedule`: the steps with the slots that they read and write; `Schedule.make`.
-/

namespace Fluxion

/-- What a program does. -/
inductive Step where
  | compute (node : Nat)
  /-- Store a computed node as result number `root`. -/
  | store (root node : Nat)
deriving DecidableEq, Repr

/-- The node that a step computes. -/
def Step.computes? : Step → Option Nat
  | compute node => some node
  | store .. => none

/-- A step with its slots. -/
structure SlottedStep where
  step : Step
  /-- The slot that is written, if one is. -/
  result : Option Nat
  /-- The slots that are read. -/
  arguments : List Nat
deriving Repr

/-- The argument of number `k`, slot 0 if there is none. -/
def SlottedStep.argument (s : SlottedStep) (k : Nat) : Nat := s.arguments.getD k 0

/-- A program whose steps know their slots. -/
structure Schedule where
  steps : List SlottedStep
  /-- The number of slots. -/
  workSize : Nat
deriving Repr

namespace Schedule

/-- The steps in order: for each root the nodes that it adds, then its store. -/
def stepsFor (operands : Nat → List Nat) (size : Nat) (roots : List Nat) : List Step :=
  let added := Postorder.visitAll operands (Postorder.stepBound operands size) .empty roots
  added.zipIdx.flatMap fun ((root, nodes), k) => nodes.map Step.compute ++ [.store k root]

/-- The steps that compute each node: one, or none. -/
def positions (size : Nat) (steps : List Step) : Array (List Nat) :=
  buckets size (steps.zipIdx.filterMap fun (s, k) => s.computes?.map (·, k))

/-- The number of the step that computes a node. -/
def position (positions : Array (List Nat)) (node : Nat) : Nat :=
  (positions.getD node []).headD 0

/-- What a step reads, and whether it has a result. -/
def demand (operands : Nat → List Nat) (positions : Array (List Nat)) : Step → Demand
  | .compute node => ⟨(operands node).map (position positions), true⟩
  | .store _ node => ⟨[position positions node], false⟩

/-- The program that computes and stores the roots. All nodes are below `size`. -/
def make (operands : Nat → List Nat) (size : Nat) (roots : List Nat) : Schedule :=
  let steps := stepsFor operands size roots
  let slots := assignSlots (steps.map (demand operands (positions size steps)))
  { steps := (steps.zip (slots.results.zip slots.arguments)).map fun (step, result, arguments) =>
      ⟨step, result, arguments.map (·.getD 0)⟩
    workSize := slots.workSize }

/-- The nodes that are computed, in order. -/
def computed (s : Schedule) : List Nat := s.steps.filterMap (·.step.computes?)

end Schedule

end Fluxion
