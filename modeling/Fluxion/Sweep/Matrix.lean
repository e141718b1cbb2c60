import Fluxion.Function.Matrix
import Fluxion.Sweep.Directions

/-!
# Sweeps over matrix tapes

Sweeps over matrix tapes build derivatives as expressions of the graph that has the function's
expressions, each on the pattern of the value that it belongs to. A derivative that is missing is
zero, and no expression is made for it unless an embedded routine needs it as an argument.

The tape only says in which order nodes are treated. What is done with a node is read off the graph.

## Main definitions

* `Sensitivities`: the derivatives that there are so far, by expression.
* `MatrixTape.forward`: how outputs move when inputs move.
* `MatrixTape.reverse`: derivatives of weighted outputs in the inputs.
-/

namespace Fluxion

/-- Derivatives by the expression that they belong to. -/
abbrev Sensitivities := NumberMap MatrixId

namespace Sensitivities

/-- The derivative of an expression, if there is one. -/
def of? (known : Sensitivities) (e : MatrixId) : Option MatrixId := known.find? e.index

/-- Note the derivative of an expression, in place of the one that it had. -/
def note (known : Sensitivities) (e d : MatrixId) : Sensitivities := known.insert e.index d

end Sensitivities

namespace MatrixTape

/-! ### Forward -/

/-- Note the derivative of an expression. -/
def record (e : MatrixId) (p : Pattern) (known : Sensitivities) (t : MatrixId) :
    MatrixBuilder Sensitivities := do
  return known.note e (← MatrixBuilder.project t p)

/-- The derivative of a unary result, in one direction. -/
def pushUnary (op : UnaryOp) (x e : MatrixId) (p : Pattern) (made : Option MatrixId)
    (known : Sensitivities) : MatrixBuilder (Option MatrixId × Sensitivities) := do
  match known.of? x with
  | none => return (made, known)
  | some tx =>
    let d ← onDemand made (unaryPartial elementwiseAlgebra op x e)
    let t ← MatrixBuilder.binary .mul d tx
    return (some d, known.note e (← MatrixBuilder.broadcast t p))

/-- Add what one operand of a binary result contributes. -/
def contribute (op : BinaryOp) (side : Side) (x y e : MatrixId) (p : Pattern)
    (made : Option MatrixId) (moved : Option MatrixId) (sum : Option MatrixId) :
    MatrixBuilder (Option MatrixId × Option MatrixId) := do
  match moved with
  | none => return (made, sum)
  | some t =>
    let d ← onDemand made (binaryPartial elementwiseAlgebra op side x y e)
    let term ← MatrixBuilder.broadcast (← MatrixBuilder.binary .mul d t) p
    match sum with
    | none => return (some d, some term)
    | some s => return (some d, some (← MatrixBuilder.binary .add s term))

/-- The derivative of a binary result, in one direction. -/
def pushBinary (op : BinaryOp) (x y e : MatrixId) (p : Pattern)
    (made : Option MatrixId × Option MatrixId) (known : Sensitivities) :
    MatrixBuilder ((Option MatrixId × Option MatrixId) × Sensitivities) := do
  let (left, sum) ← contribute op .left x y e p made.1 (known.of? x) none
  let (right, sum) ← contribute op .right x y e p made.2 (known.of? y) sum
  match sum with
  | none => return ((left, right), known)
  | some t => return ((left, right), ← record e p known t)

/-- The derivative of a matrix product, in one direction. -/
def pushProduct (x y e : MatrixId) (p : Pattern) (known : Sensitivities) :
    MatrixBuilder Sensitivities := do
  let left ← (known.of? x).mapM (MatrixBuilder.product · y)
  let right ← (known.of? y).mapM (MatrixBuilder.product x ·)
  match left, right with
  | none, none => return known
  | some a, none | none, some a => record e p known a
  | some a, some b => record e p known (← MatrixBuilder.binary .add a b)

/-- The derivative of a gather, in one direction. Entries from arguments that do not move become
zero. -/
def pushGather (arguments : List MatrixId) (map : GatherMap) (e : MatrixId) (p : Pattern)
    (known : Sensitivities) : MatrixBuilder Sensitivities := do
  let moved := arguments.map fun a => known.of? a
  if moved.all Option.isNone then return known
  else
    let zero ← MatrixBuilder.fill .scalar 0.0
    let map := map.map fun entry => entry.filter fun (a, _) => (moved.getD a none).isSome
    return known.note e (← MatrixBuilder.gather (moved.map (·.getD zero)) map p)

/-- How an argument of a routine moves, with zeros if it does not. -/
def movement (known : Sensitivities) (a : MatrixId) : MatrixBuilder MatrixId := do
  match known.of? a with
  | some t => return t
  | none => MatrixBuilder.fill (← MatrixBuilder.patternOf a) 0.0

/-- The derivative of an output of a routine, in one direction, by the forward derivative `d`. -/
def pushCall (d : Routine) (arguments : List MatrixId) (output : Nat) (e : MatrixId)
    (known : Sensitivities) : MatrixBuilder Sensitivities := do
  if arguments.all fun a => (known.of? a).isNone then return known
  else
    let moved ← arguments.mapM (movement known)
    return known.note e (← MatrixBuilder.callOutput d (arguments ++ moved) output)

/-- The derivative function of a routine, as a routine. -/
def derivativeRoutine (d : Except Error FunctionObject) : MatrixBuilder Routine := do
  let d ← .ofExcept d
  MatrixBuilder.rememberDerived d.id
  .ofExcept d.routine

/-- The derivatives of a node, in all directions. -/
def forwardNode (e : MatrixId) (p : Pattern) (directions : List Sensitivities) :
    MatrixNode → MatrixBuilder (List Sensitivities)
  | .symbol .. | .constant _ => return directions
  | .unary op x => inTurn (pushUnary op x e p) none directions
  | .binary op x y => inTurn (pushBinary op x y e p) (none, none) directions
  | .product x y => directions.mapM (pushProduct x y e p)
  | .gather arguments map q => directions.mapM (pushGather arguments map e q)
  | .scatter a map q => directions.mapM fun known =>
    match known.of? a with
    | none => return known
    | some t => return known.note e (← MatrixBuilder.scatter t map q)
  | .call r arguments output => do
    let d ← derivativeRoutine r.forwardDerivative
    directions.mapM (pushCall d arguments output e)
  | .lift value _ => return directions.map fun known =>
    (known.of? value).elim known (known.note e)

/-- Treat one instruction, in all directions. `seeds` say how the inputs move. -/
def forwardStep (seeds : List (List (Option MatrixId))) (directions : List Sensitivities)
    (instr : MatrixInstr) : MatrixBuilder (List Sensitivities) := do
  match instr.op with
  | .output _ | .constant _ | .free _ => return directions
  | .input i =>
    (seeds.zip directions).mapM fun (seed, known) =>
      match seed.getD i none with
      | none => return known
      | some s => record instr.node instr.pattern known s
  | _ => forwardNode instr.node instr.pattern directions (← MatrixBuilder.nodeOf instr.node)

/-- For each direction in which the inputs move, how each output moves. -/
def forward (tape : MatrixTape) (outputs : List MatrixId)
    (seeds : List (List (Option MatrixId))) : MatrixBuilder (List (List (Option MatrixId))) := do
  let directions ← tape.instrs.foldlM (forwardStep seeds) (seeds.map fun _ => .empty)
  return directions.map fun known => outputs.map fun e => known.of? e

/-! ### Reverse -/

/-- Add a term to the derivative in an expression, on the pattern of the expression. -/
def accumulate (known : Sensitivities) (target term : MatrixId) : MatrixBuilder Sensitivities := do
  let term ← MatrixBuilder.project term (← MatrixBuilder.patternOf target)
  match known.of? target with
  | none => return known.note target term
  | some s => return known.note target (← MatrixBuilder.binary .add s term)

/-- Go back from a unary result with derivative `s`. -/
def pullUnary (op : UnaryOp) (x e s : MatrixId) (made : Option MatrixId) (known : Sensitivities) :
    MatrixBuilder (Option MatrixId × Sensitivities) := do
  let d ← onDemand made (unaryPartial elementwiseAlgebra op x e)
  return (some d, ← accumulate known x (← MatrixBuilder.binary .mul d s))

/-- Go back from a binary result with derivative `s` to one operand. If the operand was repeated,
the contributions of all repetitions are added up. -/
def giveBack (op : BinaryOp) (side : Side) (x y e : MatrixId) (p : Pattern) (s operand : MatrixId)
    (made : Option MatrixId) (known : Sensitivities) :
    MatrixBuilder (Option MatrixId × Sensitivities) := do
  let d ← onDemand made (binaryPartial elementwiseAlgebra op side x y e)
  let term ← MatrixBuilder.binary .mul d s
  let repeated := (← MatrixBuilder.patternOf operand).isScalar && !p.isScalar
  let term ← if repeated then MatrixBuilder.sum term else pure term
  return (some d, ← accumulate known operand term)

/-- Go back from a binary result with derivative `s`. -/
def pullBinary (op : BinaryOp) (x y e : MatrixId) (p : Pattern) (s : MatrixId)
    (made : Option MatrixId × Option MatrixId) (known : Sensitivities) :
    MatrixBuilder ((Option MatrixId × Option MatrixId) × Sensitivities) := do
  let (left, known) ← giveBack op .left x y e p s x made.1 known
  let (right, known) ← giveBack op .right x y e p s y made.2 known
  return ((left, right), known)

/-- Go back from a matrix product with derivative `s`. -/
def pullProduct (x y s : MatrixId) (known : Sensitivities) : MatrixBuilder Sensitivities := do
  let known ← accumulate known x (← MatrixBuilder.product s (← MatrixBuilder.transpose y))
  accumulate known y (← MatrixBuilder.product (← MatrixBuilder.transpose x) s)

/-- Go back from a gather with derivative `s`. -/
def pullGather (arguments : List MatrixId) (map : GatherMap) (s : MatrixId)
    (known : Sensitivities) : MatrixBuilder Sensitivities :=
  arguments.zipIdx.foldlM (fun known (a, i) => do
    let targets := map.map fun entry => entry.bind fun (q, k) => if q = i then some k else none
    accumulate known a (← MatrixBuilder.scatter s targets (← MatrixBuilder.patternOf a))) known

/-- Go back from a scatter with derivative `s`. -/
def pullScatter (a : MatrixId) (map : ScatterMap) (s : MatrixId) (known : Sensitivities) :
    MatrixBuilder Sensitivities := do
  let p ← MatrixBuilder.patternOf a
  accumulate known a (← MatrixBuilder.gather [s] (.ofSources map) p)

/-- The weights of the outputs of a routine: `s` for one, zeros for the others. -/
def weights (r : Routine) (output : Nat) (s : MatrixId) : MatrixBuilder (List MatrixId) :=
  r.outPatterns.zipIdx.mapM fun (p, o) =>
    if o = output then pure s else MatrixBuilder.fill p 0.0

/-- Go back from an output of a routine with derivative `s`. -/
def pullCall (r : Routine) (arguments : List MatrixId) (output : Nat) (s : MatrixId)
    (known : Sensitivities) : MatrixBuilder Sensitivities := do
  let d ← derivativeRoutine r.reverseDerivative
  let given := arguments ++ (← weights r output s)
  arguments.zipIdx.foldlM (fun known (a, i) => do
    accumulate known a (← MatrixBuilder.callOutput d given i)) known

/-- Go back from a node with derivative `s`, in one direction. `made` are the partial derivatives
that have been made for the node. -/
def pull (e : MatrixId) (p : Pattern) (n : MatrixNode) (made : Option MatrixId × Option MatrixId)
    (known : Sensitivities) (s : MatrixId) :
    MatrixBuilder ((Option MatrixId × Option MatrixId) × Sensitivities) := do
  match n with
  | .symbol .. | .constant _ => return (made, known)
  | .unary op x =>
    let (d, known) ← pullUnary op x e s made.1 known
    return ((d, made.2), known)
  | .binary op x y => pullBinary op x y e p s made known
  | .product x y => return (made, ← pullProduct x y s known)
  | .gather arguments map _ => return (made, ← pullGather arguments map s known)
  | .scatter a map _ => return (made, ← pullScatter a map s known)
  | .call r arguments output => return (made, ← pullCall r arguments output s known)
  | .lift value _ => return (made, ← accumulate known value s)

/-- Go back over one instruction, in all directions. `seeds` weigh the outputs. -/
def reverseStep (seeds : List (List (Option MatrixId))) (directions : List Sensitivities)
    (instr : MatrixInstr) : MatrixBuilder (List Sensitivities) := do
  match instr.op with
  | .input _ | .constant _ | .free _ => return directions
  | .output i =>
    (seeds.zip directions).mapM fun (seed, known) =>
      match seed.getD i none with
      | none => return known
      | some s => accumulate known instr.node s
  | _ =>
    let n ← MatrixBuilder.nodeOf instr.node
    inTurn (fun made known =>
      match known.of? instr.node with
      | none => return (made, known)
      | some s => pull instr.node instr.pattern n made known s) (none, none) directions

/-- For each direction, which weighs the outputs, the derivative of the weighted sum in each
input. -/
def reverse (tape : MatrixTape) (inputs : List MatrixId) (seeds : List (List (Option MatrixId))) :
    MatrixBuilder (List (List (Option MatrixId))) := do
  let directions ← tape.instrs.reverse.foldlM (reverseStep seeds) (seeds.map fun _ => .empty)
  return directions.map fun known => inputs.map fun e => known.of? e

end MatrixTape

end Fluxion
