import FormulaTree.Note
import FormulaTree.Outline.Layout
import FormulaTree.Outline.Printer

/-!
# Formulas on display

From the text of a formula to its outline as plain text, or to the message in its place.
-/

namespace FormulaTree

namespace Formula

/-- The outline of a formula as plain text, with every call open. -/
def tree (settings : Settings) (source : String) : Except FormulaError String :=
  (Outline.ofSource settings source).map Outline.text

/-- What is noted of a formula that is rejected. -/
def rejectionNote (e : FormulaError) : Note :=
  .debug ("formatting failed: " ++ e.message .en)

/-- The outline of a formula as plain text, or the message to show in its place. -/
def display (settings : Settings) (source : String) : Except String String × List Note :=
  match tree settings source with
  | .ok text => (.ok text, [])
  | .error e => (.error (e.display settings.locale), [rejectionNote e])

end Formula

def Expr.tree (settings : Settings) (e : Expr) : String :=
  (Outline.ofExpr settings "" e).text

end FormulaTree
