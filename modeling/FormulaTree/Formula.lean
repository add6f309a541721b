import FormulaTree.Expr.OneLine
import FormulaTree.FormulaError

/-!
# Formulas

From the text of a formula to its expression and to its one-line form.
-/

namespace FormulaTree.Formula

/-- The expression of a formula. A leading `=` is optional. -/
def parse (source : String) : Except FormulaError Expr := do
  let tokens ← (Scanner.tokens source).mapError FormulaError.stray
  (Reader.ofTokens tokens).read.1.mapError FormulaError.mismatch

/-- The one-line form of a formula. -/
def oneLine (source : String) : Except FormulaError String :=
  (parse source).map Expr.oneLine

end FormulaTree.Formula
