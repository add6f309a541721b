import FormulaTree.Expr.Reader
import FormulaTree.Locale
import FormulaTree.Token.Scanner

/-!
# Why a formula is rejected

A formula is rejected at one place, for one reason, and `FormulaError.message` words it.
-/

namespace FormulaTree

inductive FormulaError where
  | stray (e : StrayCharacter)
  | mismatch (e : Mismatch)
deriving DecidableEq, Repr

/-- The expectation as it is named in an English message. -/
def Expectation.description : Expectation → String
  | .token text => "'" ++ text ++ "'"
  | .operand => "a value, reference, function call or '('"
  | .endOfInput => "end of input"
  | .singleEquals => "'='"
  | .shallowerNesting => "shallower nesting"
  | .fewerOperators => "fewer operators"

namespace Mismatch

/-- The text of the token, or `atEnd` when it has none. -/
def foundOr (e : Mismatch) (atEnd : String) : String :=
  if e.found.isEmpty then atEnd else "'" ++ e.found ++ "'"

def english (e : Mismatch) : String :=
  match e.expected with
  | .singleEquals => "'==' is not a formula operator; use '=' for equality"
  | .endOfInput => "unexpected " ++ e.foundOr "end of input" ++ " after a complete formula"
  | .shallowerNesting =>
    "formula is nested more than " ++ toString maxNesting ++ " levels deep"
  | .fewerOperators => "formula has more than " ++ toString maxOperators ++ " operators"
  | .token _ | .operand =>
    "expected " ++ e.expected.description ++ ", found " ++ e.foundOr "end of input"

def japanese (e : Mismatch) : String :=
  let found := e.foundOr "入力の終わり"
  match e.expected with
  | .singleEquals => "'==' は使えません。等号には '=' を使ってください"
  | .endOfInput => "式の後ろに余分なトークンがあります: " ++ found
  | .shallowerNesting => "式の入れ子が深すぎます（最大" ++ toString maxNesting ++ "段）"
  | .fewerOperators => "演算子が多すぎます（最大" ++ toString maxOperators ++ "個）"
  | .operand => "予期せぬトークン: " ++ found
  | .token text => "トークン不一致: 期待='" ++ text ++ "' 実際=" ++ found

end Mismatch

namespace FormulaError

def place : FormulaError → Position
  | stray e => e.place
  | mismatch e => e.place

def reason : FormulaError → Locale → String
  | stray e, .en => "unexpected character '" ++ e.char.toString ++ "'"
  | stray e, .ja => "未知の文字: " ++ e.char.toString
  | mismatch e, .en => e.english
  | mismatch e, .ja => e.japanese

/-- The place and what is wrong there. -/
def message (e : FormulaError) (locale : Locale) : String :=
  toString e.place ++ ": " ++ e.reason locale

/-- The message as it is shown to a user. -/
def display (e : FormulaError) (locale : Locale) : String :=
  locale.phrases.errorPrefix ++ e.message locale

end FormulaError

end FormulaTree
