import FormulaTree.Text.UpperCase.Table

/-!
# Upper case

Unicode's full upper-case mapping, applied to each character on its own: one character may become
up to three (`ß` becomes `SS`), and the neighbours of a character never matter.
-/

namespace FormulaTree.Text

/-- The upper case of a code point that lies in the run. -/
def CaseRun.upper? (r : CaseRun) (code : Nat) : Option Nat :=
  if r.first ≤ code ∧ code ≤ r.last ∧ (code - r.first) % r.step = 0 then
    some (r.target + (code - r.first))
  else
    none

/-- The upper case of one character. -/
def upperChar (c : Char) : List Char :=
  if c.toNat < 0x80 then
    [c.toUpper]
  else
    match upperCaseExpansions.lookup c.toNat with
    | some codes => codes.map Char.ofNat
    | none =>
      match upperCaseRuns.findSome? (·.upper? c.toNat) with
      | some code => [Char.ofNat code]
      | none => [c]

/-- The upper case of a text. -/
def upperCase (s : String) : String :=
  String.ofList (s.toList.flatMap upperChar)

theorem toList_upperCase (s : String) : (upperCase s).toList = s.toList.flatMap upperChar := by
  simp [upperCase]

theorem upperChar_of_ascii {c : Char} (h : c.toNat < 0x80) : upperChar c = [c.toUpper] := by
  simp [upperChar, h]

end FormulaTree.Text
