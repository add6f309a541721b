import FormulaTree.Label.Dictionary

/-!
# Settings

What formatting a formula depends on besides the formula.
-/

namespace FormulaTree

/-- The language, the choice of labels, and the dictionary they are taken from. -/
structure Settings where
  locale : Locale := .ja
  mode : Label.Mode := .auto
  dictionary : Label.Dictionary := .empty

/-- The label in front of an argument, by the name of the function and the place of the argument. -/
def Settings.label (settings : Settings) (function : String) (index : Nat) : String :=
  Label.resolve settings.dictionary function index settings.mode settings.locale

end FormulaTree
