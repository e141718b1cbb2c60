import Fluxion.Function.Matrix

/-!
# Lifted values as unknowns

A lift marks a value as an unknown of an equation. For a function whose tape has lifts there are two
functions without: the first takes a value for each unknown and returns how far each is from what it
should be, followed by the outputs, with every lifted value replaced by its unknown; the second
returns the guesses.

## Main definitions

* `LiftingFunctions`: the two functions.
* `MatrixFunction.liftingFunctions`: the two functions of a function with lifts.
-/

namespace Fluxion

/-- Two functions made from one with lifts. -/
structure LiftingFunctions where
  /-- From inputs and unknowns to residuals and outputs. -/
  definition : MatrixFunction
  /-- From inputs to guesses. -/
  guess : MatrixFunction

namespace MatrixFunction

/-- What has been replaced so far, and the unknowns, residuals and guesses, the last first. -/
structure Lifted where
  replaced : NumberMap MatrixId := .empty
  unknowns : List MatrixId := []
  residuals : List MatrixId := []
  guesses : List MatrixId := []

/-- What stands for an expression. -/
def Lifted.replace (l : Lifted) (e : MatrixId) : MatrixId := (l.replaced.find? e.index).getD e

/-- Replace one node: a lift by a new unknown, any other node by the same node with its operands
replaced. -/
def liftNode (l : Lifted) (e : MatrixId) (p : Pattern) (n : MatrixNode) : MatrixBuilder Lifted := do
  match n with
  | .lift value guess =>
    let z ← .symbol ("z_" ++ toString l.unknowns.length) p
    let residual ← .binary .sub z (l.replace value)
    return {
      replaced := l.replaced.insert e.index z
      unknowns := z :: l.unknowns
      residuals := residual :: l.residuals
      guesses := guess :: l.guesses }
  | n =>
    let rebuilt := n.mapOperands l.replace
    if rebuilt = n then return l
    else
      let e' ← .intern rebuilt p
      return { l with replaced := l.replaced.insert e.index e' }

/-- Replace what one instruction computes. -/
def liftStep (l : Lifted) (instr : MatrixInstr) : MatrixBuilder Lifted := do
  match instr.op with
  | .output _ | .input _ | .free _ | .constant _ => return l
  | _ => liftNode l instr.node instr.pattern (← .nodeOf instr.node)

/-- The function that defines the unknowns, and the one that guesses them. -/
def liftingFunctions (f : MatrixFunction) : MatrixBuilder LiftingFunctions := do
  .ofExcept (f.checkGraph (← get))
  let tape ← .ofExcept f.tape
  let l ← tape.instrs.foldlM liftStep {}
  let definition ← .ofExcept <| make (← get) (f.inputs ++ l.unknowns.reverse)
    (l.residuals.reverse ++ f.outputs.map l.replace) (f.options.extended "_vdef")
  let guess ← .ofExcept <| make (← get) f.inputs l.guesses.reverse (f.options.extended "_vinit")
  return { definition, guess }

end MatrixFunction

end Fluxion
