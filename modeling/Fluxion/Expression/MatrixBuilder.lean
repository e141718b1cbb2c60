import Fluxion.Expression.Matrix

/-!
# Building matrix expressions

Every builder looks at the patterns of its operands, refuses shapes that do not fit, and chooses the
pattern of the result. Operands of an elementwise operation are brought to the pattern of the result
first, or are 1x1 and repeated. Operations on constants are carried out at once.

Rearrangements all go through `MatrixBuilder.gather`, which keeps the graph small: equal arguments
are merged, unused ones dropped, a gather that changes nothing is its argument, and one that takes
nothing is a constant.

## Main definitions

* `elementwisePattern`: the pattern of an elementwise operation.
* `MatrixBuilder.gather`, `MatrixBuilder.scatter`: rearrangements and sums.
* `MatrixBuilder.unary`, `MatrixBuilder.binary`, `MatrixBuilder.product`: operations.
* `MatrixBuilder.project`, `MatrixBuilder.transpose`, `MatrixBuilder.vertcat` and others: gathers.
* `MatrixBuilder.call`, `MatrixBuilder.lift`: embedded routines and unknowns.
* `elementwiseAlgebra`: matrix expressions as an algebra.
-/

namespace Fluxion

/-- The pattern of an operation on two matrices of one shape, or on a matrix and a 1x1 one that is
repeated. Elements that are not stored count as zeros, so the pattern follows from what the
operation does to zeros. If that makes it dense, all elements have to fit into a table. -/
def elementwisePattern (op : BinaryOp) (a b : Pattern) : Except Error Pattern :=
  let full (p : Pattern) : Except Error Pattern := Pattern.denseOf p.nrows p.ncols
  if h : a.shape = b.shape then
    if !op.zeroBoth then full a
    else if op.zeroLeft && op.zeroRight then .ok (a.intersection b)
    else .ok (a.union b h)
  else if a.isScalar then if op.zeroRight then .ok b else full b
  else if b.isScalar then if op.zeroLeft then .ok a else full a
  else .error (.shape (.elementwise a.shape b.shape))

/-- The value for nonzero `k` of an operand of an elementwise operation. A single nonzero stands for
all. -/
def pick {V : Type} (zero : V) (values : Array V) (k : Nat) : V :=
  if values.size = 1 then values.getD 0 zero else values.getD k zero

/-! ### Gather maps -/

namespace GatherMap

/-- The arguments that some entry reads, each once, in the order in which they come first. -/
def usedArguments (map : GatherMap) (arguments : List MatrixId) : List MatrixId :=
  let read := marks arguments.length (map.filterMap fun entry => entry.map Prod.fst)
  let used := (arguments.zip read.toList).filterMap fun (a, isRead) => if isRead then some a else none
  arguments.eraseDups.filter used.contains

/-- The map with argument numbers counted among `used`. -/
def renumber (map : GatherMap) (arguments used : List MatrixId) : GatherMap :=
  let numbers := (arguments.map used.idxOf).toArray
  map.map fun entry => entry.map fun (p, k) => (numbers.getD p 0, k)

/-- Every nonzero comes from the nonzero of the same number of argument 0. -/
def isIdentity (map : GatherMap) : Bool :=
  map.zipIdx.all fun (entry, k) => entry == some (0, k)

/-- Take nonzeros of a single argument. -/
def ofSources (sources : List (Option Nat)) : GatherMap := sources.map fun k => k.map (0, ·)

end GatherMap

namespace MatrixBuilder

/-! ### Constants -/

/-- A constant. -/
def constant (m : SparseMatrix Binary64) : MatrixBuilder MatrixId := intern (.constant m) m.pattern

/-- A 1x1 constant. -/
def scalar (v : Binary64) : MatrixBuilder MatrixId := constant (.scalar v)

/-- A constant with the same value for every nonzero of a pattern. -/
def fill (p : Pattern) (v : Binary64) : MatrixBuilder MatrixId := constant (.tabulate p fun _ => v)

/-! ### Rearrangements -/

/-- Take nonzeros of the arguments as the map says. -/
def gather (arguments : List MatrixId) (map : GatherMap) (p : Pattern) : MatrixBuilder MatrixId := do
  if map.all Option.isNone then fill p 0.0
  else
    let used := map.usedArguments arguments
    let renumbered := map.renumber arguments used
    match used with
    | [a] =>
      if (← patternOf a) = p ∧ renumbered.isIdentity then return a
      else intern (.gather used renumbered p) p
    | _ => intern (.gather used renumbered p) p

/-- Add up the nonzeros of an expression as the map says. -/
def scatter (a : MatrixId) (map : ScatterMap) (p : Pattern) : MatrixBuilder MatrixId :=
  if map.all Option.isNone then fill p 0.0 else intern (.scatter a map p) p

/-- The expression on another pattern of the same shape. Elements that the pattern lacks are left
out, and elements that it adds are zero. -/
def project (a : MatrixId) (p : Pattern) : MatrixBuilder MatrixId := do
  let source ← patternOf a
  if source.shape ≠ p.shape then throw (.shape (.projection p.shape source.shape))
  else if source = p then return a
  else gather [a] (.ofSources (source.locate p)) p

/-- The expression with every element stored, if they fit into a table. -/
def densify (a : MatrixId) : MatrixBuilder MatrixId := do
  let source ← patternOf a
  let full ← ofExcept (Pattern.denseOf source.nrows source.ncols)
  gather [a] (.ofSources (source.locate full)) full

/-- The expression on a pattern; a 1x1 expression is repeated for every nonzero of a pattern of
another shape. -/
def broadcast (a : MatrixId) (p : Pattern) : MatrixBuilder MatrixId := do
  let source ← patternOf a
  if source.shape = p.shape then project a p
  else if source.isScalar then
    gather [← densify a] (List.replicate p.nnz (some (0, 0))) p
  else throw (.shape (.broadcast p.shape source.shape))

/-- Rows and columns exchanged. -/
def transpose (a : MatrixId) : MatrixBuilder MatrixId := do
  let source ← patternOf a
  let transposed ← ofExcept source.transposeOf
  gather [a] (.ofSources (source.transposeMap.map some)) transposed

/-- The patterns of several expressions. -/
def patternsOf (es : List MatrixId) : MatrixBuilder (List Pattern) := es.mapM patternOf

/-- The nonzeros of patterns on top of each other, in storage order. -/
def stackMap (columns : Nat) (patterns : List Pattern) : GatherMap :=
  let parts := patterns.map (·.numberedColumns.toArray)
  (List.range columns).flatMap fun j =>
    parts.zipIdx.flatMap fun (part, p) => (part.getD j []).map fun (_, k) => some (p, k)

/-- The nonzeros of patterns side by side, in storage order. -/
def besideMap (patterns : List Pattern) : GatherMap :=
  patterns.zipIdx.flatMap fun (s, p) => (List.range s.nnz).map fun k => some (p, k)

/-- Blocks on top of each other. All have the column count of the first. -/
def vertcat (parts : List MatrixId) : MatrixBuilder MatrixId := do
  let patterns ← patternsOf parts
  match patterns with
  | [] => fill (.empty 0 0) 0.0
  | first :: _ =>
    match patterns.find? (·.ncols != first.ncols) with
    | some block => throw (.shape (.stacked first.ncols block.shape))
    | none =>
      gather parts (stackMap first.ncols patterns) (← ofExcept (Pattern.vertcat patterns))

/-- Blocks side by side. All have the row count of the first. -/
def horzcat (parts : List MatrixId) : MatrixBuilder MatrixId := do
  let patterns ← patternsOf parts
  match patterns with
  | [] => fill (.empty 0 0) 0.0
  | first :: _ =>
    match patterns.find? (·.nrows != first.nrows) with
    | some block => throw (.shape (.adjacent first.nrows block.shape))
    | none => gather parts (besideMap patterns) (← ofExcept (Pattern.horzcat patterns))

/-- One element as a 1x1 expression, zero if it is not stored. -/
def element (a : MatrixId) (r c : Nat) : MatrixBuilder MatrixId := do
  let source ← patternOf a
  if source.nrows ≤ r ∨ source.ncols ≤ c then throw (.shape (.element source.shape r c))
  else gather [a] (.ofSources [source.find? r c]) .scalar

/-- Some of the nonzeros as a column. -/
def nonzeros (a : MatrixId) (numbers : List Nat) : MatrixBuilder MatrixId := do
  let count := (← patternOf a).nnz
  match numbers.find? (count ≤ ·) with
  | some k => throw (.shape (.nonzero count k))
  | none => gather [a] (.ofSources (numbers.map some)) (.denseColumn numbers.length)

/-- The sum of all elements, as a 1x1 expression. -/
def sum (a : MatrixId) : MatrixBuilder MatrixId := do
  let source ← patternOf a
  scatter a (List.replicate source.nnz (some 0)) .scalar

/-! ### Operations -/

/-- An operation on every element. If it does not keep zeros, all elements are stored first. -/
def unary (op : UnaryOp) (a : MatrixId) : MatrixBuilder MatrixId := do
  let a ← if op.keepsZero then pure a else densify a
  let p ← patternOf a
  match (← get).constant? a with
  | some m =>
    rememberFolds (m.values.map (.unary op))
    constant (m.map op.apply)
  | none => intern (.unary op a) p

/-- An operand of an elementwise operation with result pattern `p`: of the same shape as the other
operand or repeated. -/
def operandFor (e : MatrixId) (own other p : Pattern) : MatrixBuilder MatrixId :=
  if own.shape = other.shape ∨ !own.isScalar then project e p else densify e

/-- An operation on the elements of two expressions of one shape, or of a 1x1 expression and any
other. -/
def binary (op : BinaryOp) (a b : MatrixId) : MatrixBuilder MatrixId := do
  let pa ← patternOf a
  let pb ← patternOf b
  let p ← ofExcept (elementwisePattern op pa pb)
  let a ← operandFor a pa pb p
  let b ← operandFor b pb pa p
  match (← get).constant? a, (← get).constant? b with
  | some x, some y =>
    let xs := x.values.toArray
    let ys := y.values.toArray
    let pairs := (List.range p.nnz).map fun k => (pick 0.0 xs k, pick 0.0 ys k)
    rememberFolds (pairs.map fun (u, v) => .binary op u v)
    constant (.fitted p (pairs.map fun (u, v) => op.apply u v) 0.0)
  | _, _ => intern (.binary op a b) p

/-- The matrix product. -/
def product (a b : MatrixId) : MatrixBuilder MatrixId := do
  let pa ← patternOf a
  let pb ← patternOf b
  if pa.ncols ≠ pb.nrows then throw (.shape (.product pa.ncols pb.shape))
  else intern (.product a b) (← ofExcept (pa.productOf pb))

/-- Mark a value as an unknown with a guess. -/
def lift (value guess : MatrixId) : MatrixBuilder MatrixId := do
  let p ← patternOf value
  let pg ← patternOf guess
  if pg.shape ≠ p.shape then throw (.shape (.guess p.shape pg.shape))
  else intern (.lift value (← project guess p)) p

/-! ### Embedded routines -/

/-- An argument on the pattern of the input it is for. -/
def callArgument (a : MatrixId) (p : Pattern) : MatrixBuilder MatrixId := do
  let source ← patternOf a
  if source.shape ≠ p.shape then throw (.shape (.callShape p.shape source.shape))
  else project a p

/-- Output `output` of a routine, with arguments on the patterns of its inputs. -/
def callOutput (r : Routine) (arguments : List MatrixId) (output : Nat) : MatrixBuilder MatrixId :=
  intern (.call r arguments output) (r.outPattern output)

/-- All outputs of a routine. -/
def callRoutine (r : Routine) (arguments : List MatrixId) : MatrixBuilder (List MatrixId) := do
  if arguments.length ≠ r.inPatterns.length then
    throw (.shape (.callCount r.inPatterns.length arguments.length))
  let arguments ← (arguments.zip r.inPatterns).mapM fun (a, p) => callArgument a p
  (List.range r.outPatterns.length).mapM (callOutput r arguments)

/-- All outputs of an embedded function, which has to be initialized and free of free symbols. -/
def call (f : FunctionObject) (arguments : List MatrixId) : MatrixBuilder (List MatrixId) := do
  callRoutine (← ofExcept f.routine) arguments

end MatrixBuilder

/-- Matrix expressions of a graph with elementwise operations. None counts as known to be zero. -/
def elementwiseAlgebra : Algebra MatrixBuilder MatrixId where
  constant := .scalar
  unary := .unary
  binary := .binary
  isZero := fun _ => false

end Fluxion
