/-!
# Options of functions

A function has a name, and options that say how its Jacobians are computed: by which kind of sweep,
and whether columns or rows are seeded together.

## Main definitions

* `SweepMode`, `FunctionOptions`: the options.
* `FunctionOptions.withWeight`: the weight, kept between 0 and 1.
* `FunctionOptions.derived`: the options of a function made from another one.
-/

namespace Fluxion

/-- Which sweeps compute a Jacobian. -/
inductive SweepMode where
  /-- Those that cost less. -/
  | automatic
  | forward
  | reverse
deriving DecidableEq, Repr

/-- The name of a mode. -/
def SweepMode.name : SweepMode → String
  | .automatic => "automatic"
  | .forward => "forward"
  | .reverse => "reverse"

/-- The mode of a name. -/
def SweepMode.ofName? (name : String) : Option SweepMode :=
  [automatic, forward, reverse].find? (·.name == name)

/-- The name of a function, and how its Jacobians are computed. -/
structure FunctionOptions where
  name : String := "unnamed"
  mode : SweepMode := .automatic
  /-- The cost of a forward sweep, when that of both kinds together is 1. -/
  weight : Float := 0.5
  /-- Seed several columns or rows together. -/
  compress : Bool := true
deriving DecidableEq, Repr

namespace FunctionOptions

/-- Set the weight, moved to the nearer bound if it is not between 0 and 1. An undefined weight
stays undefined. -/
def withWeight (options : FunctionOptions) (w : Float) : FunctionOptions :=
  { options with weight := if w < 0.0 then 0.0 else if 1.0 < w then 1.0 else w }

/-- The options under another name, that of the function with something put in front. -/
def derived (options : FunctionOptions) (front : String) : FunctionOptions :=
  { options with name := front ++ options.name }

/-- The options under another name, that of the function with something put behind. -/
def extended (options : FunctionOptions) (behind : String) : FunctionOptions :=
  { options with name := options.name ++ behind }

end FunctionOptions

end Fluxion
