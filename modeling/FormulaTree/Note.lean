/-!
# Notes

What is reported beside an answer, for whoever looks after the program.
-/

namespace FormulaTree

/-- How much a note matters. -/
inductive Note.Level where
  | debug
  | warning
deriving DecidableEq, Repr

/-- A remark on what was done. -/
structure Note where
  level : Note.Level
  text : String
deriving DecidableEq, Repr

namespace Note

def debug (text : String) : Note := ⟨.debug, text⟩

def warning (text : String) : Note := ⟨.warning, text⟩

end Note

end FormulaTree
