namespace SolidScript

/-- Operators in front of one operand. -/
inductive UnaryOp where
  | not
  | plus
  | neg
deriving DecidableEq, Inhabited

/-- Operators between two operands. -/
inductive BinaryOp where
  | add
  | sub
  | mul
  | div
  | mod
  | shl
  | shr
  | lt
  | le
  | gt
  | ge
  | eq
  | ne
  | bitAnd
  | bitXor
  | bitOr
  | and
  | or
deriving DecidableEq, Inhabited

namespace UnaryOp

/-- How the operator is written. -/
def symbol : UnaryOp → String
  | .not => "!"
  | .plus => "+"
  | .neg => "-"

/-- All unary operators. -/
def all : List UnaryOp := [.not, .plus, .neg]

/-- The operator with the given symbol. -/
def ofSymbol? (s : String) : Option UnaryOp := all.find? (·.symbol = s)

end UnaryOp

namespace BinaryOp

/-- How the operator is written. -/
def symbol : BinaryOp → String
  | .add => "+"
  | .sub => "-"
  | .mul => "*"
  | .div => "/"
  | .mod => "%"
  | .shl => "<<"
  | .shr => ">>"
  | .lt => "<"
  | .le => "<="
  | .gt => ">"
  | .ge => ">="
  | .eq => "=="
  | .ne => "!="
  | .bitAnd => "&"
  | .bitXor => "^"
  | .bitOr => "|"
  | .and => "&&"
  | .or => "||"

/-- The levels of precedence, the tightest first. Operators of one level associate to the left. -/
def levels : List (List BinaryOp) :=
  [[.mul, .div, .mod], [.add, .sub], [.shl, .shr], [.lt, .le, .gt, .ge], [.eq, .ne], [.bitAnd],
    [.bitXor], [.bitOr], [.and], [.or]]

/-- All binary operators. -/
def all : List BinaryOp := levels.flatten

/-- The operator with the given symbol. -/
def ofSymbol? (s : String) : Option BinaryOp := all.find? (·.symbol = s)

/-- The operators that compare. -/
def comparisons : List BinaryOp := [.lt, .le, .gt, .ge, .eq, .ne]

end BinaryOp

end SolidScript
