/-!
# Padding

Texts filled up with spaces to a fixed number of characters.
-/

namespace FormulaTree.Text

/-- `n` copies of a text. -/
def copies (n : Nat) (s : String) : String :=
  String.join (List.replicate n s)

/-- The text with spaces behind it up to `width` characters; a longer text is kept whole. -/
def padRight (width : Nat) (s : String) : String :=
  s ++ copies (width - s.length) " "

/-- The text with spaces in front of it up to `width` characters; a longer text is kept whole. -/
def padLeft (width : Nat) (s : String) : String :=
  copies (width - s.length) " " ++ s

theorem toList_copies (n : Nat) (s : String) :
    (copies n s).toList = (List.replicate n s.toList).flatten := by
  simp [copies, List.flatMap_replicate]

theorem length_copies (n : Nat) (s : String) : (copies n s).length = n * s.length := by
  rw [← String.length_toList, toList_copies]
  simp [String.length_toList]

theorem length_padRight (width : Nat) (s : String) :
    (padRight width s).length = max width s.length := by
  have h : " ".length = 1 := rfl
  simp only [padRight, String.length_append, length_copies, h]
  omega

theorem length_padLeft (width : Nat) (s : String) :
    (padLeft width s).length = max width s.length := by
  have h : " ".length = 1 := rfl
  simp only [padLeft, String.length_append, length_copies, h]
  omega

end FormulaTree.Text
