import Fluxion.Coloring.Basic

/-!
# Star colorings and symmetric recovery

The entries of a symmetric matrix can be read from either of two places, so it needs fewer
colors than its columns would ask for. A star coloring gives different colors to neighbors in the
adjacency of the symmetrized pattern, and leaves no path on four vertices with only two colors.

`Coloring.recover` says, for a pattern and any coloring, from which sweep and which row each nonzero
can be read, if every nonzero can be.

## Main definitions

* `Pattern.symmetrized`: a square pattern together with its transpose.
* `Coloring.star`, `Coloring.starOf`: the greedy star coloring, without and with a check.
* `Coloring.recover`: where to read the nonzeros of a symmetric matrix; `Coloring.recoverOf` checks
  the size.
-/

namespace Fluxion

/-- A square pattern together with its transpose. -/
def Pattern.symmetrized (p : Pattern) (h : p.nrows = p.ncols) : Pattern :=
  p.union p.transpose (Pattern.shape_transpose_of_square h)

namespace Coloring

/-- The other vertices that each vertex is joined to. -/
def neighbors (sym : Pattern) : Array (List Nat) :=
  (sym.columns.zipIdx.map fun (joined, v) => joined.filter (· != v)).toArray

/-- The colors of a vertex's neighbors. -/
def neighborColors (adjacent : Nat → List Nat) (colors : Array Nat) (v : Nat) : List Nat :=
  (adjacent v).filterMap (colors[·]?)

/-- Colors, other than those of its neighbors, that would close a path of two colors that ends in
`v`: those of the third vertices of paths `v - w - x - y` in which `w` and `y` have one color. -/
def endConflicts (adjacent : Nat → List Nat) (colors : Array Nat) (v : Nat) : List Nat :=
  let near : NumberSet := .ofList (neighborColors adjacent colors v)
  (adjacent v).flatMap fun w =>
    match colors[w]? with
    | none => []
    | some cw => (adjacent w).filterMap fun x => (colors[x]?).filter fun cx =>
        x != v && !near.contains cx && (adjacent x).any fun y => y != w && colors[y]? == some cw

/-- The pairs of list members, each with those after it. -/
def orderedPairs : List Nat → List (Nat × Nat)
  | [] => []
  | u :: rest => rest.map (u, ·) ++ orderedPairs rest

/-- Colors that would close a path of two colors in which `v` is inside: those of the vertices
beyond two neighbors of one color. -/
def middleConflicts (adjacent : Nat → List Nat) (colors : Array Nat) (v : Nat) : List Nat :=
  (orderedPairs (adjacent v)).flatMap fun (u, w) =>
    if (colors[u]?).isSome && colors[u]? == colors[w]? then
      (adjacent w ++ adjacent u).filterMap fun x => if x != v then colors[x]? else none
    else []

/-- The colors that the next vertex must not take. -/
def starConflicts (neighbors : Array (List Nat)) (colors : Array Nat) : List Nat :=
  let adjacent := fun v => neighbors.getD v []
  let v := colors.size
  neighborColors adjacent colors v ++ endConflicts adjacent colors v
    ++ middleConflicts adjacent colors v

/-- The greedy star coloring of a square pattern, which is symmetrized first. -/
def star (p : Pattern) (h : p.nrows = p.ncols) : Coloring :=
  greedy (starConflicts (neighbors (p.symmetrized h))) p.ncols

/-- The star coloring, if the pattern is square. -/
def starOf (p : Pattern) : Except Error Coloring :=
  if h : p.nrows = p.ncols then .ok (star p h) else .error (.precondition .squarePattern)

/-! ### Recovery -/

/-- No column of the list but `j` has color `c`. Columns are looked at in order, and the first that
has the color ends the search. -/
def onlyOne (coloring : Coloring) (c j : Nat) : List Nat → Except Error Bool
  | [] => .ok true
  | k :: rest =>
    if k = j then onlyOne coloring c j rest
    else match coloring.color? k with
      | none => .error .outOfRange
      | some ck => if ck = c then .ok false else onlyOne coloring c j rest

/-- Entry `(i, j)` is alone in row `i` of the sweep with the color of column `j`: then the sweep is
returned. `columns` are those of a symmetric pattern, and so its rows as well. -/
def sweepFor? (coloring : Coloring) (columns : Array (List Nat)) (i j : Nat) :
    Except Error (Option Nat) :=
  match coloring.color? j with
  | none => .error .outOfRange
  | some c =>
    match onlyOne coloring c j (columns.getD i [] ++ [i]) with
    | .error e => .error e
    | .ok alone => .ok (if alone then some c else none)

/-- Where to read an entry: in its own place, or else in that of row and column exchanged. -/
def readEntry (coloring : Coloring) (columns : Array (List Nat)) (i j : Nat) :
    Except Error (Option (Nat × Nat)) :=
  match coloring.sweepFor? columns i j with
  | .error e => .error e
  | .ok (some c) => .ok (some (c, i))
  | .ok none =>
    match coloring.sweepFor? columns j i with
    | .error e => .error e
    | .ok found => .ok (found.map (·, j))

/-- Where to read each of a list of entries. The first that cannot be read ends the search. -/
def readEntries (coloring : Coloring) (columns : Array (List Nat)) :
    List (Nat × Nat) → Except Error (Option (List (Nat × Nat)))
  | [] => .ok (some [])
  | (i, j) :: rest =>
    match coloring.readEntry columns i j with
    | .error e => .error e
    | .ok none => .ok none
    | .ok (some place) =>
      match readEntries coloring columns rest with
      | .error e => .error e
      | .ok places => .ok (places.map (place :: ·))

/-- For each nonzero of a square pattern, a sweep and a row of it that show the entry of any
symmetric matrix with this pattern, if the coloring allows it for all of them. -/
def recover (p : Pattern) (coloring : Coloring) : Except Error (Option (List (Nat × Nat))) :=
  if h : p.nrows = p.ncols then coloring.readEntries (p.symmetrized h).columns.toArray p.positions
  else .error (.precondition .sameShape)

/-- Where to read the nonzeros, if the transpose of the pattern fits into tables. -/
def recoverOf (p : Pattern) (coloring : Coloring) : Except Error (Option (List (Nat × Nat))) :=
  if p.nrows + 1 < tableLimit then recover p coloring else .error .tooLarge

end Coloring

end Fluxion
