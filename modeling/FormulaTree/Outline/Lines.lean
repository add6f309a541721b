import FormulaTree.Outline.Basic
import FormulaTree.Text.Blank
import FormulaTree.Text.Padding

/-!
# Outlines as plain text

Each level of an outline is indented by two spaces. The rows of a call stand behind bars: the label
is padded to a fixed width and the value follows after a gutter, without its own indentation on its
first line.

    IF(
    | logical_test    (
    |                     A1
    |                     >
    |                     0
    |                   )
    | value_if_true   SUM(
    |                 | | arg1            B1
    |                   )
    | value_if_false  0
    )
-/

namespace FormulaTree

namespace Outline

/-- The number of characters that labels are padded to. -/
def labelWidth : Nat := 14

def gutter : String := "  "

def indented (depth : Nat) (text : String) : String :=
  Text.copies depth "  " ++ text

/-- The lines of a row of a call at the given depth, by its label and the lines of its value. -/
def rowLines (depth : Nat) (label : String) : List String → List String
  | [] => []
  | first :: more =>
    let start (label : String) :=
      Text.copies (depth + 1) "| " ++ Text.padRight labelWidth label ++ gutter
    (start label ++ Text.trimStart first) :: more.map (start "" ++ ·)

end Outline

mutual

/-- The lines of a block at the given depth, by whether a call is open. -/
def Block.lines (isOpen : Nat → Bool) (depth : Nat) : Block → List String
  | .line text => [Outline.indented depth text]
  | .paren inner =>
    Outline.indented depth "(" :: inner.lines isOpen (depth + 1) ++ [Outline.indented depth ")"]
  | .binary left o right =>
    Outline.indented depth "(" :: left.lines isOpen (depth + 1)
      ++ Outline.indented (depth + 1) o.symbol :: right.lines isOpen (depth + 1)
      ++ [Outline.indented depth ")"]
  | .call id function preview rows =>
    if isOpen id then
      Outline.indented depth (function ++ "(") :: rows.lines isOpen depth
        ++ [Outline.indented depth ")"]
    else
      [Outline.indented depth (function ++ preview)]

/-- The lines of the rows of a call at the given depth. -/
def Rows.lines (isOpen : Nat → Bool) (depth : Nat) : Rows → List String
  | .nil => []
  | .cons label value rest =>
    Outline.rowLines depth label (value.lines isOpen (depth + 1)) ++ rest.lines isOpen depth

end

namespace Outline

/-- The lines of an outline, with the header while it is visible. -/
def lines (o : Outline) : List String :=
  (if o.headerVisible then [o.header] else []) ++ o.root.lines o.isOpen 0

end Outline

end FormulaTree
