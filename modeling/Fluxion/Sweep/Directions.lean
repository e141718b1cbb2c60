/-!
# Several directions in one pass

A sweep treats several directions together. What the directions have in common, such as the partial
derivative of an operation, is made when the first of them needs it and handed on to the others.

## Main definitions

* `inTurn`: treat directions one after another.
* `onDemand`: what has been made, or else make it.
-/

namespace Fluxion

variable {m : Type → Type} [Monad m]

/-- Treat the members of a list in order, handing something on from each to the next. -/
def inTurn {σ α β : Type} (f : σ → α → m (σ × β)) : σ → List α → m (List β)
  | _, [] => pure []
  | s, a :: rest => do
    let (s, b) ← f s a
    return b :: (← inTurn f s rest)

/-- Something that is made when it is first needed. -/
def onDemand {V : Type} (made : Option V) (make : m V) : m V :=
  match made with
  | some v => pure v
  | none => make

end Fluxion
