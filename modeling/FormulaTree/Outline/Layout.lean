import FormulaTree.Formula
import FormulaTree.Outline.Basic
import FormulaTree.Settings

/-!
# The outline of an expression

Operands and whatever stands below a sign take one line; parentheses, binary operators and calls
become blocks. Calls are numbered from 0, each one before those in its arguments.
-/

namespace FormulaTree

mutual

/-- The block of an expression whose first call has the number `first`. -/
def Block.ofExpr (label : String → Nat → String) (first : Nat) : Expr → Block
  | .binary left o right =>
    .binary (Block.ofExpr label first left) o (Block.ofExpr label (first + left.blockCount) right)
  | .paren inner => .paren (Block.ofExpr label first inner)
  | .call function args =>
    let name := Text.upperCase function
    .call first name (Expr.argumentsLine args) (Rows.ofArgs label name 0 (first + 1) args)
  | .number text => .line (Expr.number text).oneLine
  | .string contents => .line (Expr.string contents).oneLine
  | .name text => .line (Expr.name text).oneLine
  | .unary sign operand => .line (Expr.unary sign operand).oneLine

/-- The rows of the arguments from `index` on, the first call in which has the number `first`. -/
def Rows.ofArgs (label : String → Nat → String) (function : String) (index first : Nat) :
    List Expr → Rows
  | [] => .nil
  | arg :: args =>
    .cons (label function index) (Block.ofExpr label first arg)
      (Rows.ofArgs label function (index + 1) (first + arg.blockCount) args)

end

namespace Outline

/-- The outline of an expression, under a header. -/
def ofExpr (settings : Settings) (header : String) (e : Expr) : Outline :=
  ofBlock header (Block.ofExpr settings.label 0 e)

/-- The outline of a formula, under the formula without the blanks around it. -/
def ofSource (settings : Settings) (source : String) : Except FormulaError Outline :=
  (Formula.parse source).map (ofExpr settings (Text.trim source))

theorem ofSource_of_parse_ok {source : String} {e : Expr} (h : Formula.parse source = .ok e)
    (settings : Settings) :
    ofSource settings source = .ok (ofExpr settings (Text.trim source) e) := by
  rw [ofSource, h]
  rfl

theorem ofSource_of_parse_error {source : String} {e : FormulaError}
    (h : Formula.parse source = .error e) (settings : Settings) :
    ofSource settings source = .error e := by
  rw [ofSource, h]
  rfl

end Outline

end FormulaTree
