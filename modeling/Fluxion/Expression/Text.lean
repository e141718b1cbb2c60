import Fluxion.Decimal.Shortest
import Fluxion.Expression.Scalar
import Fluxion.Schedule.Postorder

/-!
# Scalar expressions as text

An expression is written in infix form. An operation that is read from several places is written
once, bound to a name `@1`, `@2` and so on in front of the text, and referred to by that name. So
the text is never longer than the graph is large, up to a factor.

Operands are bound before the operations that read them, those on the right before those on the
left.

## Main definitions

* `ScalarGraph.nodeText`: the text of one node from those of its operands.
* `ScalarGraph.textOrder`: the order in which nodes are written.
* `ScalarGraph.text`: the infix form with bindings.
-/

namespace Fluxion

namespace ScalarGraph

/-- The text of a node from the texts of its operands. -/
def nodeText (g : ScalarGraph) (text : ScalarId → String) (e : ScalarId) : String :=
  match g.node? e with
  | none => "?"
  | some (.symbol _) => (g.name? e).getD "?"
  | some (.literal v) => Decimal.literal v.value
  | some (.unary .neg a) => "(-" ++ text a ++ ")"
  | some (.unary op a) => op.name ++ "(" ++ text a ++ ")"
  | some (.binary .pow a b) => "pow(" ++ text a ++ ", " ++ text b ++ ")"
  | some (.binary op a b) => "(" ++ text a ++ " " ++ op.symbol ++ " " ++ text b ++ ")"

/-- The operands by number, from right to left. -/
def operandNumbersReversed (g : ScalarGraph) (i : Nat) : List Nat := (g.operandNumbers i).reverse

theorem length_operandNumbersReversed_le (g : ScalarGraph) (i : Nat) :
    (g.operandNumbersReversed i).length ≤ 2 := by
  simp only [operandNumbersReversed, operandNumbers, List.length_reverse, List.length_map]
  unfold operands
  cases g.node? ⟨i⟩ with
  | none => simp
  | some n => cases n <;> simp [ScalarNode.operands]

/-- The nodes below an expression, each after its operands, those on the right before those on the
left. A printer may as well keep one stack of nodes, on which each reader puts its operands from left
to right if they are not met yet. A node can lie on that stack several times; it is met when the
uppermost of these is taken off, and the others are passed over. So both walks meet the operand on the
right first, unless it was met before, and the one on the left when all below the right one is listed:
the order is the same. -/
def textOrder (g : ScalarGraph) (e : ScalarId) : List ScalarId :=
  (Postorder.visit g.operandNumbersReversed (3 * g.size) .empty e.index).2.map ScalarId.mk

/-- No node has more than two operands, so the steps that `ScalarGraph.textOrder` allows are enough
for any walk. -/
theorem stepBound_operandNumbersReversed_le (g : ScalarGraph) :
    Postorder.stepBound g.operandNumbersReversed g.size ≤ 3 * g.size :=
  Postorder.stepBound_le g.length_operandNumbersReversed_le g.size

/-- A text under construction: what to write for each expression so far, the bindings, and their
number. -/
structure Draft where
  texts : NumberMap String := .empty
  bindings : String := ""
  bound : Nat := 0

/-- What to write for an expression. -/
def Draft.textOf (d : Draft) (e : ScalarId) : String := (d.texts.find? e.index).getD ""

/-- Write one more expression; bind it to a name if asked to. -/
def Draft.add (e : ScalarId) (text : String) (bind : Bool) : Draft → Draft
  | ⟨texts, bindings, bound⟩ =>
    if bind then
      let name := "@" ++ toString (bound + 1)
      ⟨texts.insert e.index name, bindings ++ name ++ "=" ++ text ++ ", ", bound + 1⟩
    else ⟨texts.insert e.index text, bindings, bound⟩

/-- An operation other than `root` that is read from several places, which are the members of
`repeated`. -/
def isShared (g : ScalarGraph) (repeated : NumberSet) (root e : ScalarId) : Bool :=
  e != root && !(g.operands e).isEmpty && repeated.contains e.index

/-- The text of an expression. -/
def text (g : ScalarGraph) (e : ScalarId) : Except Error String :=
  match g.node? e with
  | none => .error .outOfRange
  | some _ =>
    let order := g.textOrder e
    let repeated := NumberSet.ofRepeated (order.flatMap fun x => g.operandNumbers x.index)
    let draft : Draft := order.foldl
      (fun (d : Draft) x => d.add x (g.nodeText d.textOf x) (g.isShared repeated e x)) {}
    .ok (draft.bindings ++ draft.textOf e)

end ScalarGraph

end Fluxion
