import FormulaTree.Outline.Lines

/-!
# Printing outlines

The printer of an outline keeps the indentation and the bars it has written in two rulers, and cuts
from them what stands in front of a line. A ruler grows when a block stands deeper than all blocks
before it.
-/

namespace FormulaTree

/-- The first `n` characters of a text that has as many. -/
def Text.front (n : Nat) (s : String) (_ : n ≤ s.length) : String :=
  String.ofList (s.toList.take n)

/-- A text made of copies of a unit, which is never empty. -/
structure Ruler (unit : String) where
  kept : String := ""
  isCopies : ∃ n, kept = Text.copies n unit := by exact ⟨0, rfl⟩
  unit_pos : 0 < unit.length := by decide

namespace Ruler

variable {unit : String}

def push (r : Ruler unit) : Ruler unit where
  kept := r.kept ++ unit
  isCopies := by
    obtain ⟨n, hkept⟩ := r.isCopies
    refine ⟨n + 1, ?_⟩
    rw [hkept, Text.copies, Text.copies, List.replicate_succ', String.join_append]
    simp
  unit_pos := r.unit_pos

/-- The ruler with as many units behind it as it takes to have `need` characters. -/
def grow (need : Nat) (r : Ruler unit) : { r : Ruler unit // need ≤ r.kept.length } :=
  if h : r.kept.length < need then r.push.grow need else ⟨r, Nat.le_of_not_lt h⟩
termination_by need - r.kept.length
decreasing_by
  have hlength : r.push.kept.length = r.kept.length + unit.length := String.length_append _ _
  have hunit := r.unit_pos
  omega

/-- As many units as the depth, and the ruler they are cut from. -/
def cut (depth : Nat) (r : Ruler unit) : String × Ruler unit :=
  let need := depth * unit.length
  let grown := r.grow need
  (Text.front need grown.1.kept grown.2, grown.1)

end Ruler

/-- What the printer of an outline keeps. -/
structure Printer where
  indents : Ruler "  " := {}
  bars : Ruler "| " := {}

namespace Printer

def indent (depth : Nat) : StateM Printer String :=
  modifyGet fun p =>
    let (text, indents) := p.indents.cut depth
    (text, { p with indents })

def barsOf (depth : Nat) : StateM Printer String :=
  modifyGet fun p =>
    let (text, bars) := p.bars.cut depth
    (text, { p with bars })

def line (depth : Nat) (text : String) : StateM Printer String := do
  return (← indent depth) ++ text

/-- The lines of a row behind its bars, by its label and the lines of its value. -/
def row (bars label : String) : List String → List String
  | [] => []
  | first :: more =>
    let blankLabel := Text.copies Outline.labelWidth " "
    (bars ++ Text.padRight Outline.labelWidth label ++ Outline.gutter ++ Text.trimStart first) ::
      more.map (bars ++ blankLabel ++ Outline.gutter ++ ·)

end Printer

mutual

/-- Prints the lines of a block at the given depth, by whether a call is open. -/
def Block.print (isOpen : Nat → Bool) (depth : Nat) : Block → StateM Printer (List String)
  | .line text => do
    return [← Printer.line depth text]
  | .paren inner => do
    let start ← Printer.line depth "("
    let body ← inner.print isOpen (depth + 1)
    let stop ← Printer.line depth ")"
    return start :: body ++ [stop]
  | .binary left o right => do
    let start ← Printer.line depth "("
    let leftLines ← left.print isOpen (depth + 1)
    let sign ← Printer.line (depth + 1) o.symbol
    let rightLines ← right.print isOpen (depth + 1)
    let stop ← Printer.line depth ")"
    return start :: leftLines ++ sign :: rightLines ++ [stop]
  | .call id function preview rows =>
    if isOpen id then do
      let start ← Printer.line depth (function ++ "(")
      let bars ← Printer.barsOf (depth + 1)
      let body ← rows.print isOpen depth bars
      let stop ← Printer.line depth ")"
      return start :: body ++ [stop]
    else do
      return [← Printer.line depth (function ++ preview)]

/-- Prints the lines of the rows of a call at the given depth, behind bars. -/
def Rows.print (isOpen : Nat → Bool) (depth : Nat) (bars : String) :
    Rows → StateM Printer (List String)
  | .nil => return []
  | .cons label value rest => do
    let valueLines ← value.print isOpen (depth + 1)
    let restLines ← rest.print isOpen depth bars
    return Printer.row bars label valueLines ++ restLines

end

namespace Outline

/-- The text of an outline, with the header while it is visible. -/
def text (o : Outline) : String :=
  let header := if o.headerVisible then [o.header] else []
  let (blockLines, _) := Id.run ((o.root.print o.isOpen 0).run {})
  "\n".intercalate (header ++ blockLines)

end Outline

end FormulaTree
