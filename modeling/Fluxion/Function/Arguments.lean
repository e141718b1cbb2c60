import Fluxion.SparseMatrix

/-!
# Arguments of functions

Functions number their inputs and outputs from zero, and take one matrix for each input. A matrix
has to have the shape of its input, but not its pattern: values outside the pattern of the input are
left out, and missing ones are zero.

## Main definitions

* `checkInput`, `checkOutput`: numbers in range.
* `checkArguments`: the right number of arguments, each of the right shape.
* `arrange`: the values of arguments on the patterns of the inputs.
-/

namespace Fluxion

/-- There is an input of this number. -/
def checkInput (i count : Nat) : Except Error Unit :=
  if i < count then .ok () else .error (.inputIndex i count)

/-- There is an output of this number. -/
def checkOutput (i count : Nat) : Except Error Unit :=
  if i < count then .ok () else .error (.outputIndex i count)

/-- The first argument whose shape is not that of its pattern, where the next argument is argument
`i`. -/
def shapeFault? : Nat → List Pattern → List Shape → Option ShapeMismatch
  | i, p :: patterns, s :: shapes =>
    if s = p.shape then shapeFault? (i + 1) patterns shapes else some (.argumentShape i p.shape s)
  | _, _, _ => none

/-- There are as many arguments as patterns, and each has the shape of its pattern. -/
def checkArguments {α : Type} (patterns : List Pattern) (arguments : List (SparseMatrix α)) :
    Except Error Unit :=
  if arguments.length ≠ patterns.length then
    .error (.shape (.argumentCount patterns.length arguments.length))
  else
    match shapeFault? 0 patterns (arguments.map SparseMatrix.shape) with
    | some mismatch => .error (.shape mismatch)
    | none => .ok ()

/-- The values of arguments on the patterns of the inputs. -/
def arrange {α : Type} (patterns : List Pattern) (arguments : List (SparseMatrix α)) (zero : α) :
    List (List α) :=
  List.zipWith (fun m p => (m.onPattern p zero).values) arguments patterns

end Fluxion
