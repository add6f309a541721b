/-!
# Signs and binary operators

A binary operator has a precedence: of two operators the one with the higher precedence takes its
operands first, and operators of one precedence associate to the left.
-/

namespace FormulaTree

inductive Sign where
  | plus
  | minus
deriving DecidableEq, Repr

inductive BinaryOp where
  | eq
  | ne
  | lt
  | le
  | gt
  | ge
  | add
  | sub
  | mul
  | div
  | pow
  | range
deriving DecidableEq, Repr

def Sign.symbol : Sign → String
  | .plus => "+"
  | .minus => "-"

namespace BinaryOp

def symbol : BinaryOp → String
  | eq => "="
  | ne => "<>"
  | lt => "<"
  | le => "<="
  | gt => ">"
  | ge => ">="
  | add => "+"
  | sub => "-"
  | mul => "*"
  | div => "/"
  | pow => "^"
  | range => ":"

/-- Comparisons bind loosest; then sums; then products, quotients and powers on one level; and a
range binds tightest. -/
def precedence : BinaryOp → Nat
  | eq | ne | lt | le | gt | ge => 1
  | add | sub => 2
  | mul | div | pow => 3
  | range => 4

/-- The sign that is written like the operator, if there is one. -/
def sign? : BinaryOp → Option Sign
  | add => some .plus
  | sub => some .minus
  | _ => none

theorem symbol_injective {o p : BinaryOp} (h : o.symbol = p.symbol) : o = p := by
  cases o <;> cases p <;> first | rfl | exact absurd h (by decide)

theorem symbol_of_sign?_eq_some {o : BinaryOp} {s : Sign} (h : o.sign? = some s) :
    o.symbol = s.symbol := by
  cases o <;> simp [sign?] at h <;> subst h <;> rfl

end BinaryOp

end FormulaTree
