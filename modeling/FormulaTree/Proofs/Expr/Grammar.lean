import FormulaTree.Expr.Basic
import FormulaTree.Token.Basic
import Mathlib

/-!
# The grammar of formulas

An expression is determined by its tokens only if it respects the levels of the grammar: comparisons
are on level 1, sums on 2, products on 3, ranges on 4, and operands on 5, which are literals, names,
calls, expressions in parentheses, and operands behind a sign. Operators of one level associate to
the left.
-/

namespace FormulaTree

/-- The token that a sign is written with. -/
def Sign.token : Sign → Token
  | plus => .op .add
  | minus => .op .sub

theorem Sign.token_eq_of_sign? {o : BinaryOp} {s : Sign} (h : o.sign? = some s) :
    s.token = .op o := by
  cases o <;> cases h <;> rfl

theorem BinaryOp.one_le_precedence (o : BinaryOp) : 1 ≤ o.precedence := by
  cases o <;> decide

theorem BinaryOp.precedence_le_four (o : BinaryOp) : o.precedence ≤ 4 := by
  cases o <;> decide

namespace Expr

mutual

/-- The tokens of an expression, in order. -/
def tokens : Expr → List Token
  | number text => [.number text]
  | string contents => [.string contents]
  | name text => [.name text]
  | unary sign operand => sign.token :: operand.tokens
  | binary left o right => left.tokens ++ .op o :: right.tokens
  | paren inner => .leftParen :: (inner.tokens ++ [.rightParen])
  | call f args => .name f :: .leftParen :: (argTokens args ++ [.rightParen])

/-- The tokens of the arguments of a call, with commas between them. -/
def argTokens : List Expr → List Token
  | [] => []
  | e :: es => e.tokens ++ furtherTokens es

/-- The tokens of further arguments, with a comma before each. -/
def furtherTokens : List Expr → List Token
  | [] => []
  | e :: es => .comma :: (e.tokens ++ furtherTokens es)

end

mutual

/-- The most signs, parentheses and calls on a path from the root to a leaf. -/
def nesting : Expr → Nat
  | number _ | string _ | name _ => 0
  | unary _ operand => operand.nesting + 1
  | binary left _ right => max left.nesting right.nesting
  | paren inner => inner.nesting + 1
  | call _ args => nestingAll args + 1

/-- The most signs, parentheses and calls on a path in any of the expressions. -/
def nestingAll : List Expr → Nat
  | [] => 0
  | e :: es => max e.nesting (nestingAll es)

end

mutual

/-- The number of binary operators. -/
def operatorCount : Expr → Nat
  | number _ | string _ | name _ => 0
  | unary _ operand => operand.operatorCount
  | binary left _ right => left.operatorCount + right.operatorCount + 1
  | paren inner => inner.operatorCount
  | call _ args => operatorCountAll args

/-- The number of binary operators in all the expressions. -/
def operatorCountAll : List Expr → Nat
  | [] => 0
  | e :: es => e.operatorCount + operatorCountAll es

end

mutual

/-- Whether the grammar has the expression on a level. -/
def Fits : Nat → Expr → Prop
  | _, number _ | _, string _ | _, name _ => True
  | _, unary _ operand => Fits 5 operand
  | level, binary left o right =>
    level ≤ o.precedence ∧ Fits o.precedence left ∧ Fits (o.precedence + 1) right
  | _, paren inner => Fits 1 inner
  | _, call _ args => FitAll args

/-- Whether the grammar has all the expressions on the loosest level. -/
def FitAll : List Expr → Prop
  | [] => True
  | e :: es => Fits 1 e ∧ FitAll es

end

/-- What the grammar has on a level it has on the looser ones. -/
theorem Fits.mono {e : Expr} {m n : Nat} (h : e.Fits m) (hle : n ≤ m) : e.Fits n := by
  cases e with
  | binary left o right => exact ⟨Nat.le_trans hle h.1, h.2⟩
  | _ => exact h

theorem fitAll_iff {es : List Expr} : FitAll es ↔ ∀ e ∈ es, e.Fits 1 := by
  induction es with
  | nil => simp [FitAll]
  | cons e es ih => rw [FitAll, ih, List.forall_mem_cons]

theorem nestingAll_le_iff {es : List Expr} {n : Nat} :
    nestingAll es ≤ n ↔ ∀ e ∈ es, e.nesting ≤ n := by
  induction es with
  | nil => simp [nestingAll]
  | cons e es ih => rw [nestingAll, Nat.max_le, ih, List.forall_mem_cons]

theorem operatorCountAll_append (ds es : List Expr) :
    operatorCountAll (ds ++ es) = operatorCountAll ds + operatorCountAll es := by
  induction ds with
  | nil => rw [List.nil_append, operatorCountAll, Nat.zero_add]
  | cons d ds ih => rw [List.cons_append, operatorCountAll, operatorCountAll, ih, Nat.add_assoc]

theorem operatorCountAll_reverse (es : List Expr) :
    operatorCountAll es.reverse = operatorCountAll es := by
  induction es with
  | nil => rfl
  | cons e es ih =>
    rw [List.reverse_cons, operatorCountAll_append, ih, operatorCountAll, operatorCountAll,
      operatorCountAll, Nat.add_zero, Nat.add_comm]

theorem operatorCount_le_of_mem {e : Expr} : {es : List Expr} → e ∈ es →
    e.operatorCount ≤ operatorCountAll es
  | d :: ds, h => by
    rw [operatorCountAll]
    rcases List.mem_cons.mp h with rfl | hmem
    · omega
    · have hle := operatorCount_le_of_mem hmem
      omega

theorem mem_furtherTokens {e : Expr} {t : Token} (ht : t ∈ e.tokens) :
    {es : List Expr} → e ∈ es → t ∈ furtherTokens es
  | d :: ds, h => by
    rw [furtherTokens, List.mem_cons, List.mem_append]
    rcases List.mem_cons.mp h with rfl | hmem
    · exact .inr (.inl ht)
    · exact .inr (.inr (mem_furtherTokens ht hmem))

theorem mem_argTokens {e : Expr} {t : Token} (ht : t ∈ e.tokens) {es : List Expr} (h : e ∈ es) :
    t ∈ argTokens es := by
  cases es with
  | nil => exact absurd h List.not_mem_nil
  | cons d ds =>
    rw [argTokens, List.mem_append]
    rcases List.mem_cons.mp h with rfl | hmem
    · exact .inl ht
    · exact .inr (mem_furtherTokens ht hmem)

theorem argTokens_append_singleton (es : List Expr) (e : Expr) :
    argTokens (es ++ [e]) = es.flatMap (fun d => d.tokens ++ [.comma]) ++ e.tokens := by
  have further : ∀ ds, furtherTokens (ds ++ [e]) =
      .comma :: (ds.flatMap (fun d => d.tokens ++ [.comma]) ++ e.tokens) := by
    intro ds
    induction ds with
    | nil => simp [furtherTokens]
    | cons d ds ih => simp [furtherTokens, ih]
  cases es with
  | nil => simp [argTokens, furtherTokens]
  | cons d ds => simp [argTokens, further]

end Expr

end FormulaTree
