/-!
# Output streams

What a run writes, and the lines by which it reports on itself.
-/

namespace FormulaTree

structure Streams where
  out : String
  err : String
deriving DecidableEq, Repr

namespace Streams

def empty : Streams := ⟨"", ""⟩

/-- One text is written after another on each stream. -/
instance : Append Streams where
  append a b := ⟨a.out ++ b.out, a.err ++ b.err⟩

@[simp] theorem out_append (a b : Streams) : (a ++ b).out = a.out ++ b.out := rfl

@[simp] theorem err_append (a b : Streams) : (a ++ b).err = a.err ++ b.err := rfl

theorem append_assoc (a b c : Streams) : a ++ b ++ c = a ++ (b ++ c) := by
  show mk _ _ = mk _ _
  simp only [out_append, err_append, String.append_assoc]

@[simp] theorem empty_append (a : Streams) : empty ++ a = a := by
  show mk _ _ = a
  simp only [empty, String.empty_append]

@[simp] theorem append_empty (a : Streams) : a ++ empty = a := by
  show mk _ _ = a
  simp only [empty, String.append_empty]

end Streams

def programName : String := "formula-outline"

/-- A line on the error stream that starts with the name of the program. -/
def reportLine (text : String) : String :=
  programName ++ ": " ++ text ++ "\n"

end FormulaTree
