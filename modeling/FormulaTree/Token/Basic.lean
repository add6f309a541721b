import FormulaTree.Operator
import FormulaTree.Position

/-!
# Tokens of a formula
-/

namespace FormulaTree

/-- A token. Names, numbers and strings carry their text exactly as written, a string without its
quotes. -/
inductive Token where
  /-- A function name, a cell reference such as `$A$1`, or a named range. -/
  | name (text : String)
  | number (text : String)
  | string (contents : String)
  | op (o : BinaryOp)
  /-- The sign `==`, which no formula contains. -/
  | doubleEquals
  | leftParen
  | rightParen
  | comma
  | ending
deriving DecidableEq, Repr

namespace Token

inductive Kind where
  | name
  | number
  | string
  | punctuation
  | operator
  | ending
deriving DecidableEq, Repr

def kind : Token → Kind
  | name _ => .name
  | number _ => .number
  | string _ => .string
  | op _ | doubleEquals => .operator
  | leftParen | rightParen | comma => .punctuation
  | ending => .ending

/-- The text of a token: a symbol, the text of a literal, or nothing for the end. -/
def text : Token → String
  | name text | number text => text
  | string contents => contents
  | op o => o.symbol
  | doubleEquals => "=="
  | leftParen => "("
  | rightParen => ")"
  | comma => ","
  | ending => ""

/-- A token with the position of its first character. -/
structure Placed where
  token : Token
  place : Position
deriving DecidableEq, Repr

end Token

end FormulaTree
