/-!
# Refusals

Every request of this library that can be refused is refused with a value of `Error`, which names
the cause. The wording of each cause is given once, in `Error.message`.

Three of the causes are not about a request but about a broken precondition: `Error.precondition`
names the rule that the arguments break, `Error.outOfRange` says that an index points past the end
of the thing it indexes, and `Error.tooLarge` that a count would not fit into a word or a table not
into memory. The last two have no wording of their own.

## Main definitions

* `FunctionKind`: the two flavors of functions.
* `Precondition`: the rules on the arguments of patterns and matrices, with their text.
* `ShapeMismatch`: operands whose shapes or counts do not fit, with what was expected and what came.
* `Error`: the causes; `Error.message` words them.
-/

namespace Fluxion

/-- The number of rows and the number of columns. -/
abbrev Shape := Nat × Nat

/-- Rows, a cross and columns, as in `3x1`. -/
def Shape.text (shape : Shape) : String :=
  toString shape.1 ++ "x" ++ toString shape.2

/-- The kind of graph a function was built from. -/
inductive FunctionKind where
  | scalar
  | matrix
deriving DecidableEq, Repr

/-- The name of a kind in messages. -/
def FunctionKind.text : FunctionKind → String
  | .scalar => "scalar-graph"
  | .matrix => "matrix-graph"

/-- Rules on the arguments of pattern and matrix operations. -/
inductive Precondition where
  /-- One column start more than there are columns. -/
  | startCount
  /-- The first column starts at zero. -/
  | firstStart
  /-- The last start is the number of rows listed. -/
  | lastStart
  /-- Column starts never decrease. -/
  | startOrder
  /-- Every row lies below the row count. -/
  | rowBound
  /-- The rows of a column increase. -/
  | rowOrder
  /-- As many row numbers as column numbers. -/
  | tripletCount
  /-- Every pair lies inside the shape. -/
  | tripletBound
  /-- A projection keeps the shape. -/
  | projectionShape
  /-- Patterns combined entry by entry have one shape. -/
  | sameShape
  /-- The columns of the left factor are the rows of the right one. -/
  | innerDimension
  /-- Stacked parts have one column count. -/
  | stackedColumns
  /-- Parts side by side have one row count. -/
  | adjacentRows
  /-- A matrix has one value for each nonzero. -/
  | valueCount
  /-- A star coloring is asked of a square pattern. -/
  | squarePattern
deriving DecidableEq, Repr

/-- The text of a broken rule. -/
def Precondition.text : Precondition → String
  | .startCount => "Sparsity: colind length mismatch"
  | .firstStart => "Sparsity: colind must start at zero"
  | .lastStart => "Sparsity: colind/row mismatch"
  | .startOrder => "Sparsity: colind not monotone"
  | .rowBound => "Sparsity: row index out of bounds"
  | .rowOrder => "Sparsity: rows not sorted"
  | .tripletCount => "Sparsity: triplet length mismatch"
  | .tripletBound => "Sparsity: triplet out of bounds"
  | .projectionShape => "Sparsity: projection shape mismatch"
  | .sameShape => "Sparsity: shape mismatch"
  | .innerDimension => "Sparsity: inner dimension mismatch"
  | .stackedColumns => "Sparsity: vertcat column mismatch"
  | .adjacentRows => "Sparsity: horzcat row mismatch"
  | .valueCount => "Matrix: nonzero count mismatch"
  | .squarePattern => "star_coloring: pattern must be square"

/-- Operands that do not fit together or do not fit the request. -/
inductive ShapeMismatch where
  /-- A function was given the wrong number of arguments. -/
  | argumentCount (expected got : Nat)
  /-- An argument of a function has the wrong shape. -/
  | argumentShape (argument : Nat) (expected got : Shape)
  /-- A gradient was asked of an output that is not 1x1. -/
  | gradient (output : Shape)
  /-- A tangent was asked along an input that is not 1x1. -/
  | tangent (input : Shape)
  /-- Elementwise operands have different shapes and neither is 1x1. -/
  | elementwise (left right : Shape)
  /-- A projection changes the shape. -/
  | projection (target source : Shape)
  /-- A value that is not 1x1 cannot be repeated over another shape. -/
  | broadcast (target source : Shape)
  /-- The right factor of a product has the wrong row count. -/
  | product (rows : Nat) (right : Shape)
  /-- A stacked block has the wrong column count. -/
  | stacked (columns : Nat) (block : Shape)
  /-- A block put to the side has the wrong row count. -/
  | adjacent (rows : Nat) (block : Shape)
  /-- An element outside the shape was asked for. -/
  | element (shape : Shape) (row column : Nat)
  /-- A nonzero beyond the last one was asked for. -/
  | nonzero (count index : Nat)
  /-- A lifted value and its guess have different shapes. -/
  | guess (value guess : Shape)
  /-- An embedded function was given the wrong number of arguments. -/
  | callCount (expected got : Nat)
  /-- An argument of an embedded function has the wrong shape. -/
  | callShape (expected got : Shape)
  /-- An expansion was given the wrong number of symbols. -/
  | symbolCount (expected got : Nat)
deriving DecidableEq, Repr

/-- The request that a mismatch belongs to. -/
def ShapeMismatch.context : ShapeMismatch → String
  | .argumentCount .. | .argumentShape .. => "arguments"
  | .gradient .. => "grad"
  | .tangent .. => "tang"
  | .elementwise .. => "elementwise operation"
  | .projection .. => "project"
  | .broadcast .. => "broadcast"
  | .product .. => "mtimes"
  | .stacked .. => "vertcat"
  | .adjacent .. => "horzcat"
  | .element .. => "element"
  | .nonzero .. => "nonzeros"
  | .guess .. => "lift"
  | .callCount .. | .callShape .. => "call"
  | .symbolCount .. => "expand"

/-- What the request expects. -/
def ShapeMismatch.expected : ShapeMismatch → String
  | .argumentCount n _ => toString n ++ " arguments"
  | .argumentShape i s _ => s.text ++ " for argument " ++ toString i
  | .gradient _ => "1x1 output"
  | .tangent _ => "1x1 input"
  | .elementwise s _ | .projection s _ | .broadcast s _ | .guess s _ | .callShape s _ => s.text
  | .product n _ => toString n ++ " rows"
  | .stacked n _ => toString n ++ " columns"
  | .adjacent n _ => toString n ++ " rows"
  | .element s _ _ => "index within " ++ s.text
  | .nonzero n _ => "index below " ++ toString n
  | .callCount n _ => toString n ++ " arguments"
  | .symbolCount n _ => toString n ++ " symbols"

/-- What came instead. -/
def ShapeMismatch.got : ShapeMismatch → String
  | .argumentCount _ n | .nonzero _ n | .callCount _ n | .symbolCount _ n => toString n
  | .argumentShape _ _ s | .gradient s | .tangent s | .elementwise _ s | .projection _ s
  | .broadcast _ s | .product _ s | .stacked _ s | .adjacent _ s | .guess _ s
  | .callShape _ s => s.text
  | .element _ r c => "(" ++ toString r ++ ", " ++ toString c ++ ")"

/-- Why a request is refused. -/
inductive Error where
  /-- A function of one kind was presented where the other is required. -/
  | kindMismatch (expected got : FunctionKind)
  /-- There is no input of this number. -/
  | inputIndex (index count : Nat)
  /-- There is no output of this number. -/
  | outputIndex (index count : Nat)
  /-- The named function has no tape yet. -/
  | notInitialized (name : String)
  /-- The named function has dropped its expressions. -/
  | symbolsCleared (name : String)
  /-- Shapes or counts do not fit. -/
  | shape (mismatch : ShapeMismatch)
  /-- A function input holds something other than symbols. -/
  | notSymbolic (input : Nat)
  /-- A function input repeats a symbol. -/
  | repeatedSymbol (input : Nat)
  /-- Symbols that are no inputs have no value. -/
  | freeSymbols (names : List String)
  /-- The function belongs to a graph that this one does not share. -/
  | foreignGraph
  /-- The graph has no node of this index. -/
  | unknownExpression (index : Nat)
  /-- The arguments break a rule of a pattern or matrix operation. -/
  | precondition (rule : Precondition)
  /-- An index points past the end. -/
  | outOfRange
  /-- A count is too large for a word, or a table has too many entries. -/
  | tooLarge
deriving DecidableEq, Repr

/-- The wording of a cause. An index past the end and a size that is too large have none. -/
def Error.message : Error → Option String
  | .kindMismatch expected got => some <|
      "type mismatch: expected " ++ expected.text ++ " function, got " ++ got.text ++ " function"
  | .inputIndex i n => some <|
      "input index " ++ toString i ++ " out of range [0, " ++ toString n ++ ")"
  | .outputIndex i n => some <|
      "output index " ++ toString i ++ " out of range [0, " ++ toString n ++ ")"
  | .notInitialized name => some <| "function '" ++ name ++ "' is not initialized"
  | .symbolsCleared name => some <| "function '" ++ name ++ "' has no symbolic expressions"
  | .shape m => some <| m.context ++ ": expected " ++ m.expected ++ ", got " ++ m.got
  | .notSymbolic i => some <| "function input " ++ toString i ++ " is not purely symbolic"
  | .repeatedSymbol i => some <|
      "function input " ++ toString i ++ " repeats a symbol of an earlier input"
  | .freeSymbols names => some <|
      "function has free variables: [" ++ ", ".intercalate names ++ "]"
  | .foreignGraph => some "expression belongs to a different graph"
  | .unknownExpression i => some <| "no node with index " ++ toString i ++ " in graph"
  | .precondition rule => some rule.text
  | .outOfRange | .tooLarge => none

end Fluxion
