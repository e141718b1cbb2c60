import Fluxion.Coloring.Star
import Fluxion.Function.Options

/-!
# Plans for Jacobians

The Jacobian of an output in an input has a row for each nonzero of the output and a column for each
nonzero of the input, and its pattern is known beforehand. A plan says which components to seed in
each sweep, and in which sweep and component each entry is found.

A symmetric Jacobian is planned with a star coloring. Any other one is planned with a coloring of
its columns, for forward sweeps, and one of its rows, for reverse sweeps, and the options decide
between the two.

## Main definitions

* `JacobianPlan`: sweeps, and where to find entries.
* `JacobianPlan.make`: the plan for a pattern.
* `Pattern.assembled`: the pattern of the Jacobian of full matrices; `Pattern.assembledOf` checks the
  size.
-/

namespace Fluxion

/-- The direction in which a sweep goes. -/
inductive Direction where
  /-- From seeded inputs to outputs. -/
  | forward
  /-- From seeded outputs to inputs. -/
  | reverse
deriving DecidableEq, Repr

/-- How a Jacobian is computed. -/
structure JacobianPlan where
  direction : Direction
  /-- The components that each sweep seeds. -/
  sweeps : List (List Nat)
  /-- For each nonzero, the sweep and the component in which it is found. -/
  lookup : List (Nat × Nat)
deriving DecidableEq, Repr

namespace JacobianPlan

/-- Forward sweeps, if they cost no more than the reverse ones. -/
def cheaper (weight : Float) (forward reverse : Nat) : Direction :=
  if weight * Float.ofNat forward ≤ (1.0 - weight) * Float.ofNat reverse then .forward
  else .reverse

/-- The plan for a symmetric Jacobian, if every entry can be read. -/
def symmetric? (p : Pattern) (options : FunctionOptions) (h : p.nrows = p.ncols) :
    Option JacobianPlan :=
  let coloring := if options.compress then Coloring.star p h else Coloring.identity p.ncols
  match Coloring.recover p coloring with
  | .ok (some lookup) => some ⟨.forward, coloring.groups, lookup⟩
  | _ => none

/-- The plan by columns or by rows. -/
def general (p : Pattern) (options : FunctionOptions) : JacobianPlan :=
  let columns := if options.compress then Coloring.column p else Coloring.identity p.ncols
  let rows :=
    if options.compress then Coloring.column p.transpose else Coloring.identity p.nrows
  let direction : Direction := match options.mode with
    | .forward => .forward
    | .reverse => .reverse
    | .automatic => cheaper options.weight columns.count rows.count
  match direction with
  | .forward =>
    ⟨.forward, columns.groups, p.positions.map fun (i, j) => ((columns.color? j).getD 0, i)⟩
  | .reverse =>
    ⟨.reverse, rows.groups, p.positions.map fun (i, j) => ((rows.color? i).getD 0, j)⟩

/-- The plan for a pattern. `symmetric` is a promise about the values.

No size is checked. There is a row for each nonzero that an output stores and a column for each one
that an input stores, so their numbers are far below `tableLimit`, and the tables of the transpose, the
identities and the colorings have at most one entry more. -/
def make (p : Pattern) (options : FunctionOptions) (symmetric : Bool) : JacobianPlan :=
  if h : p.nrows = p.ncols then
    if symmetric then (symmetric? p options h).getD (general p options)
    else general p options
  else general p options

end JacobianPlan

/-- Seed the components of a group among `n`. -/
def seedMask (n : Nat) (group : List Nat) : List Bool := (marks n group).toList

/-- The pattern of a Jacobian. `p` has a row for each nonzero of `output` and a column for each
nonzero of `input`. Unless the Jacobian is compact, these are moved to the places of the nonzeros
among all elements; the order of the entries stays the same. -/
def Pattern.assembled (p output input : Pattern) (compact : Bool) : Pattern :=
  if compact then p
  else
    let rows := output.linearIndices.toArray
    let columns := input.linearIndices.toArray
    ofPositions output.numel input.numel <|
      p.positions.map fun (i, j) => (rows.getD i 0, columns.getD j 0)

/-- The pattern of a Jacobian, if its rows can be counted and its starts fit into a table. A compact
one always fits, since it has rows and columns for the nonzeros alone. -/
def Pattern.assembledOf (p output input : Pattern) (compact : Bool) : Except Error Pattern :=
  if compact = true ∨ output.numel < countLimit ∧ input.numel + 1 < tableLimit then
    .ok (p.assembled output input compact)
  else .error .tooLarge

end Fluxion
