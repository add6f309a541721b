import FormulaTree.Expr.Basic

/-!
# The one-line form of an expression

One space stands on each side of a binary operator, none after a sign, and a comma and a space
between the arguments of a call. Names, numbers and strings are written as they were read.
-/

namespace FormulaTree.Expr

mutual

/-- The one-line form. -/
def oneLine : Expr → String
  | number text | name text => text
  | string contents => "\"" ++ contents ++ "\""
  | unary sign operand => sign.symbol ++ operand.oneLine
  | binary left o right => left.oneLine ++ " " ++ o.symbol ++ " " ++ right.oneLine
  | paren inner => "(" ++ inner.oneLine ++ ")"
  | call f args => f ++ ("(" ++ ", ".intercalate (oneLines args) ++ ")")

/-- The one-line form of each expression. -/
def oneLines : List Expr → List String
  | [] => []
  | e :: es => e.oneLine :: oneLines es

end

/-- The arguments of a call in parentheses. -/
def argumentsLine (args : List Expr) : String :=
  "(" ++ ", ".intercalate (oneLines args) ++ ")"

theorem oneLines_eq_map (es : List Expr) : oneLines es = es.map oneLine := by
  induction es with
  | nil => rfl
  | cons e es ih => simp [oneLines, ih]

theorem oneLine_call (f : String) (args : List Expr) :
    (call f args).oneLine = f ++ argumentsLine args := by
  simp only [oneLine, argumentsLine]

end FormulaTree.Expr
