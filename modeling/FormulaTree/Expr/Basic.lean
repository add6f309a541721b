import FormulaTree.Operator

/-!
# Expressions

The tree of a formula. Parentheses that were written are kept as nodes of their own, so that what is
printed from a tree has the shape that was read.
-/

namespace FormulaTree

inductive Expr where
  /-- A number, exactly as written. -/
  | number (text : String)
  /-- A string literal by its contents, without the quotes. -/
  | string (contents : String)
  /-- A cell reference, a named range or a bare word. -/
  | name (text : String)
  | unary (sign : Sign) (operand : Expr)
  | binary (left : Expr) (o : BinaryOp) (right : Expr)
  | paren (inner : Expr)
  /-- A function call, its name as written. -/
  | call (function : String) (args : List Expr)
deriving Repr, Inhabited

namespace Expr

mutual

/-- The number of calls that stand below no sign. -/
def blockCount : Expr → Nat
  | number _ | string _ | name _ | unary _ _ => 0
  | binary left _ right => left.blockCount + right.blockCount
  | paren inner => inner.blockCount
  | call _ args => blockCountAll args + 1

/-- The number of calls that stand below no sign, in all the expressions. -/
def blockCountAll : List Expr → Nat
  | [] => 0
  | e :: es => e.blockCount + blockCountAll es

end

end Expr

end FormulaTree
