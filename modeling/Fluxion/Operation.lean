import Fluxion.Binary64

/-!
# Elementary operations

The operations that expressions are made of: what they compute on numbers, how they are written,
and what they do to zeros. A structural zero stays a structural zero only under an operation that
sends zero to zero, so the facts about zeros decide the patterns of results.

## Main definitions

* `UnaryOp`, `BinaryOp`: the operations, with `apply` on numbers.
* `UnaryOp.keepsZero`, `BinaryOp.zeroBoth`, `BinaryOp.zeroLeft`, `BinaryOp.zeroRight`.
* `UnaryOp.ofName?`, `BinaryOp.ofName?`: operations by the name that requests use.
-/

namespace Fluxion

/-! ### One operand -/

/-- Operations on one operand. -/
inductive UnaryOp where
  | neg
  | sqrt
  | sin
  | cos
  | tan
  | exp
  | log
  | tanh
deriving DecidableEq, Repr

namespace UnaryOp

/-- All of them. -/
def all : List UnaryOp := [neg, sqrt, sin, cos, tan, exp, log, tanh]

/-- The value on a number. -/
def apply : UnaryOp → Binary64 → Binary64
  | neg, x => x.neg
  | sqrt, x => x.map Float.sqrt
  | sin, x => x.map Float.sin
  | cos, x => x.map Float.cos
  | tan, x => x.map Float.tan
  | exp, x => x.map Float.exp
  | log, x => x.map Float.log
  | tanh, x => x.map Float.tanh

/-- Zero is sent to zero. -/
def keepsZero : UnaryOp → Bool
  | neg | sqrt | sin | tan | tanh => true
  | cos | exp | log => false

/-- The name in texts. -/
def name : UnaryOp → String
  | neg => "neg"
  | sqrt => "sqrt"
  | sin => "sin"
  | cos => "cos"
  | tan => "tan"
  | exp => "exp"
  | log => "log"
  | tanh => "tanh"

/-- The operation of a name. -/
def ofName? (name : String) : Option UnaryOp := all.find? (·.name == name)

end UnaryOp

/-! ### Two operands -/

/-- Operations on two operands. -/
inductive BinaryOp where
  | add
  | sub
  | mul
  | div
  | pow
deriving DecidableEq, Repr

namespace BinaryOp

/-- All of them. -/
def all : List BinaryOp := [add, sub, mul, div, pow]

/-- The value on numbers. -/
def apply : BinaryOp → Binary64 → Binary64 → Binary64
  | add, x, y => .map₂ (· + ·) x y
  | sub, x, y => .map₂ (· - ·) x y
  | mul, x, y => .map₂ (· * ·) x y
  | div, x, y => .map₂ (· / ·) x y
  | pow, x, y => x.pow y

/-- Two zeros are sent to zero. -/
def zeroBoth : BinaryOp → Bool
  | add | sub | mul => true
  | div | pow => false

/-- A zero on the left gives zero, whatever stands on the right. -/
def zeroLeft : BinaryOp → Bool
  | mul | div => true
  | add | sub | pow => false

/-- A zero on the right gives zero, whatever stands on the left. -/
def zeroRight : BinaryOp → Bool
  | mul => true
  | add | sub | div | pow => false

/-- The sign between the operands in texts. -/
def symbol : BinaryOp → String
  | add => "+"
  | sub => "-"
  | mul => "*"
  | div => "/"
  | pow => "^"

/-- The name in requests. -/
def name : BinaryOp → String
  | add => "add"
  | sub => "sub"
  | mul => "mul"
  | div => "div"
  | pow => "pow"

/-- The operation of a name. -/
def ofName? (name : String) : Option BinaryOp := all.find? (·.name == name)

end BinaryOp

/-- Which of two operands. -/
inductive Side where
  | left
  | right
deriving DecidableEq, Repr

end Fluxion
