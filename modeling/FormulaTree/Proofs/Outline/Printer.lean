import FormulaTree.Outline.Printer
import FormulaTree.Proofs.Outline.Lines
import FormulaTree.Proofs.Outline.MarkedTree
import FormulaTree.Proofs.RoundTrip

/-!
# The printer of an outline

A ruler is always copies of its unit, so what is cut from it depends on the depth alone, whatever
was asked of it before. The printer therefore writes the lines of the plain layout, which keeps
nothing and takes the indentation of a value away by counting.
-/

namespace FormulaTree

theorem Text.copies_add (m n : Nat) (s : String) : copies (m + n) s = copies m s ++ copies n s := by
  apply String.toList_inj.mp
  rw [String.toList_append, toList_copies, toList_copies, toList_copies, List.replicate_add,
    List.flatten_append]

theorem Text.front_copies {n m : Nat} {s : String} (h : n ≤ m)
    (hlength : n * s.length ≤ (copies m s).length) :
    front (n * s.length) (copies m s) hlength = copies n s := by
  obtain ⟨k, rfl⟩ := Nat.exists_eq_add_of_le h
  have hfront : (copies n s).toList.length = n * s.length := by
    rw [String.length_toList, length_copies]
  rw [front, copies_add, String.toList_append, ← hfront, List.take_left, String.ofList_toList]

/-! ## What is kept -/

namespace Ruler

variable {unit : String} {r : Ruler unit}

/-- A ruler is grown to the depth, and not beyond. -/
theorem kept_grow {n : Nat} (h : r.kept = Text.copies n unit) (depth : Nat) :
    (r.grow (depth * unit.length)).1.kept = Text.copies (max n depth) unit := by
  fun_induction r.grow (depth * unit.length) generalizing n with
  | case1 r hshort ih =>
    have hpush : r.push.kept = Text.copies (n + 1) unit := by
      have hone : Text.copies 1 unit = unit := by simp [Text.copies]
      rw [Text.copies_add, hone, ← h]
      rfl
    rw [h, Text.length_copies] at hshort
    -- A ruler that is too short has fewer units than the depth, so one more is not too many.
    have hdeeper : n < depth := Nat.lt_of_mul_lt_mul_right hshort
    rw [ih hpush]
    congr 1
    omega
  | case2 r hlong =>
    rw [h, Text.length_copies, Nat.not_lt] at hlong
    have hle : depth ≤ n := Nat.le_of_mul_le_mul_right hlong r.unit_pos
    rw [h, Nat.max_eq_left hle]

theorem cut_eq {n : Nat} (h : r.kept = Text.copies n unit) (depth : Nat) :
    (r.cut depth).1 = Text.copies depth unit ∧
      (r.cut depth).2.kept = Text.copies (max n depth) unit := by
  have hgrow := kept_grow h depth
  refine ⟨?_, hgrow⟩
  have hfront := Text.front_copies (Nat.le_max_right n depth) (hgrow ▸ (r.grow _).2)
  simp only [cut, hgrow]
  exact hfront

end Ruler

namespace Printer

/-- What the printer is asked for in front of a line. -/
inductive Request where
  | indent (depth : Nat)
  | bars (depth : Nat)
deriving DecidableEq, Repr

def answer : Request → StateM Printer String
  | .indent depth => indent depth
  | .bars depth => barsOf depth

namespace Request

/-- The answer without anything kept. -/
def plain : Request → String
  | indent depth => Text.copies depth "  "
  | bars depth => Text.copies depth "| "

def indentDepth : Request → Nat
  | indent depth => depth
  | bars _ => 0

def barDepth : Request → Nat
  | indent _ => 0
  | bars depth => depth

end Request

/-- Whether the printer keeps the indentation and the bars of these depths. -/
structure Keeps (p : Printer) (indents bars : Nat) : Prop where
  indents_eq : p.indents.kept = Text.copies indents "  "
  bars_eq : p.bars.kept = Text.copies bars "| "

theorem exists_keeps (p : Printer) : ∃ indents bars, p.Keeps indents bars := by
  obtain ⟨indents, hindents⟩ := p.indents.isCopies
  obtain ⟨bars, hbars⟩ := p.bars.isCopies
  exact ⟨indents, bars, hindents, hbars⟩

/-- A request is answered as if nothing were kept, and only a deeper one than all before it makes
the printer keep more. -/
theorem run_answer {p : Printer} {indents bars : Nat} (h : p.Keeps indents bars) (r : Request) :
    ∃ p', (answer r).run p = (r.plain, p') ∧
      p'.Keeps (max indents r.indentDepth) (max bars r.barDepth) := by
  cases r with
  | indent depth =>
    obtain ⟨hcut, hkept⟩ := Ruler.cut_eq h.indents_eq depth
    refine ⟨{ p with indents := (p.indents.cut depth).2 }, ?_, hkept, ?_⟩
    · rw [Request.plain, ← hcut]
      rfl
    · rw [Request.barDepth, Nat.max_zero, h.bars_eq]
  | bars depth =>
    obtain ⟨hcut, hkept⟩ := Ruler.cut_eq h.bars_eq depth
    refine ⟨{ p with bars := (p.bars.cut depth).2 }, ?_, ?_, hkept⟩
    · rw [Request.plain, ← hcut]
      rfl
    · rw [Request.indentDepth, Nat.max_zero, h.indents_eq]

/-- The same of any requests in a row: in the end the deepest ones are kept. -/
theorem run_answers {p : Printer} {indents bars : Nat} (h : p.Keeps indents bars)
    (asked : List Request) :
    ∃ p', (asked.mapM answer).run p = (asked.map Request.plain, p') ∧
      p'.Keeps ((asked.map Request.indentDepth).foldl max indents)
        ((asked.map Request.barDepth).foldl max bars) := by
  induction asked generalizing p indents bars with
  | nil => exact ⟨p, rfl, h⟩
  | cons r asked ih =>
    obtain ⟨p', hfirst, hkeeps⟩ := run_answer h r
    obtain ⟨p'', hrest, hkeeps'⟩ := ih hkeeps
    refine ⟨p'', ?_, hkeeps'⟩
    have hrun : ((r :: asked).mapM answer).run p =
        let first := (answer r).run p
        let more := (asked.mapM answer).run first.2
        (first.1 :: more.1, more.2) := by
      rw [List.mapM_cons]
      rfl
    simp only [hrun, hfirst, hrest, List.map_cons]

section

variable {asked : List Request} {r : Request}

/-- The deepest indentation that is asked for. -/
def deepestIndent (asked : List Request) : Nat :=
  (asked.map Request.indentDepth).foldl max 0

/-- The most bars that are asked for. -/
def mostBars (asked : List Request) : Nat :=
  (asked.map Request.barDepth).foldl max 0

theorem indentDepth_le_deepestIndent (h : r ∈ asked) : r.indentDepth ≤ deepestIndent asked := by
  rw [deepestIndent, List.foldl_eq_foldr]
  exact List.le_max_of_le' 0 (List.mem_map_of_mem h) (Nat.le_refl _)

theorem barDepth_le_mostBars (h : r ∈ asked) : r.barDepth ≤ mostBars asked := by
  rw [mostBars, List.foldl_eq_foldr]
  exact List.le_max_of_le' 0 (List.mem_map_of_mem h) (Nat.le_refl _)

/-- What is kept is long enough for every slice that was asked for. -/
theorem Keeps.slices_in_range {p : Printer}
    (h : p.Keeps (deepestIndent asked) (mostBars asked)) (hr : r ∈ asked) :
    2 * r.indentDepth ≤ p.indents.kept.length ∧ 2 * r.barDepth ≤ p.bars.kept.length := by
  have hindent := indentDepth_le_deepestIndent hr
  have hbars := barDepth_le_mostBars hr
  have hunits : "  ".length = 2 ∧ "| ".length = 2 := ⟨rfl, rfl⟩
  rw [h.indents_eq, h.bars_eq, Text.length_copies, Text.length_copies, hunits.1, hunits.2]
  omega

end

/-- Whether an action gives the same result whatever the printer keeps. -/
def Gives {α : Type} (action : StateM Printer α) (a : α) : Prop :=
  ∀ p, (action.run p).1 = a

namespace Gives

variable {α β : Type} {action : StateM Printer α} {a : α}

theorem pure (a : α) : Gives (Pure.pure a) a :=
  fun _ => rfl

theorem bind {next : α → StateM Printer β} {b : β} (h : Gives action a) (hnext : Gives (next a) b) :
    Gives (action >>= next) b := by
  intro p
  show ((next (action.run p).1).run (action.run p).2).1 = b
  rw [h p]
  exact hnext _

/-- What is made of the result of an action. -/
theorem map (f : α → β) (h : Gives action a) : Gives (do return f (← action)) (f a) :=
  h.bind (pure (f a))

end Gives

theorem gives_answer (r : Request) : Gives (answer r) r.plain := by
  intro p
  obtain ⟨indents, bars, hkeeps⟩ := p.exists_keeps
  obtain ⟨p', hanswer, -⟩ := run_answer hkeeps r
  rw [hanswer]

theorem gives_line (depth : Nat) (text : String) :
    Gives (line depth text) (Outline.indented depth text) :=
  (gives_answer (.indent depth)).map (· ++ text)

theorem row_eq_rowLines (depth : Nat) (label : String) (valueLines : List String) :
    row (Text.copies (depth + 1) "| ") label valueLines =
      Outline.rowLines depth label valueLines := by
  have hblank : Text.padRight Outline.labelWidth "" = Text.copies Outline.labelWidth " " := rfl
  cases valueLines with
  | nil => rfl
  | cons first more =>
    rw [row, ← hblank]
    rfl

end Printer

open Printer (Gives gives_answer gives_line)

mutual

/-- The printer writes the lines of the block, whatever it was asked for before. -/
theorem Block.gives_print (isOpen : Nat → Bool) (depth : Nat) : (b : Block) →
    Gives (b.print isOpen depth) (b.lines isOpen depth)
  | .line text => (gives_line depth text).map ([·])
  | .paren inner =>
    (gives_line depth "(").bind ((inner.gives_print isOpen (depth + 1)).bind
      ((gives_line depth ")").bind (.pure _)))
  | .binary left o right =>
    (gives_line depth "(").bind ((left.gives_print isOpen (depth + 1)).bind
      ((gives_line (depth + 1) o.symbol).bind ((right.gives_print isOpen (depth + 1)).bind
        ((gives_line depth ")").bind (.pure _)))))
  | .call id function preview rows => by
    rw [Block.print, Block.lines]
    by_cases hopen : isOpen id = true
    · rw [if_pos hopen, if_pos hopen]
      exact (gives_line depth (function ++ "(")).bind ((gives_answer (.bars (depth + 1))).bind
        ((rows.gives_print isOpen depth).bind ((gives_line depth ")").bind (.pure _))))
    · rw [if_neg hopen, if_neg hopen]
      exact (gives_line depth (function ++ preview)).map ([·])

theorem Rows.gives_print (isOpen : Nat → Bool) (depth : Nat) : (rs : Rows) →
    Gives (rs.print isOpen depth (Text.copies (depth + 1) "| ")) (rs.lines isOpen depth)
  | .nil => .pure []
  | .cons label value rest => by
    -- The bars were asked for once, by the call, and serve all of its rows.
    rw [Rows.print, Rows.lines, ← Printer.row_eq_rowLines]
    exact (value.gives_print isOpen (depth + 1)).bind ((rest.gives_print isOpen depth).bind
      (.pure _))

end

namespace Outline

/-- The text of an outline has the lines of the plain layout. -/
theorem text_eq_intercalate (o : Outline) : o.text = "\n".intercalate o.lines := by
  have hprint := o.root.gives_print o.isOpen 0 {}
  rw [lines, ← hprint]
  rfl

end Outline

/-! ## The plain layout -/

namespace Outline

/-- A line at a depth: two spaces for each level and then the text. -/
def lineAt (depth : Nat) (text : String) : List Char :=
  List.replicate (2 * depth) ' ' ++ text.toList

/-- A line of a row of a call at a depth: the bars, the label field, the gutter and the rest. -/
def behindBars (depth : Nat) (field rest : List Char) : List Char :=
  (List.replicate (depth + 1) ['|', ' ']).flatten ++ field.rightpad 14 ' ' ++ [' ', ' '] ++ rest

/-- The lines of a row, by its label and the lines of its value, which are one level deeper than the
call. The first of them loses as many characters as its indentation has. -/
def rowLayout (depth : Nat) (label : String) : List (List Char) → List (List Char)
  | [] => []
  | first :: more =>
    behindBars depth label.toList (first.drop (2 * (depth + 1))) :: more.map (behindBars depth [])

end Outline

mutual

/-- The lines of a block at a depth as they are laid out, with nothing kept from line to line. -/
def Block.layout (isOpen : Nat → Bool) (depth : Nat) : Block → List (List Char)
  | .line text => [Outline.lineAt depth text]
  | .paren inner =>
    Outline.lineAt depth "(" :: inner.layout isOpen (depth + 1) ++ [Outline.lineAt depth ")"]
  | .binary left o right =>
    Outline.lineAt depth "(" :: left.layout isOpen (depth + 1)
      ++ Outline.lineAt (depth + 1) o.symbol :: right.layout isOpen (depth + 1)
      ++ [Outline.lineAt depth ")"]
  | .call id function preview rows =>
    if isOpen id then
      Outline.lineAt depth (function ++ "(") :: rows.layout isOpen depth
        ++ [Outline.lineAt depth ")"]
    else
      [Outline.lineAt depth (function ++ preview)]

def Rows.layout (isOpen : Nat → Bool) (depth : Nat) : Rows → List (List Char)
  | .nil => []
  | .cons label value rest =>
    Outline.rowLayout depth label (value.layout isOpen (depth + 1)) ++ rest.layout isOpen depth

end

mutual

/-- The values in the rows of the calls in a block at a depth, each with the depth of its lines. -/
def Block.rowValues (depth : Nat) : Block → List (Nat × Block)
  | .line _ => []
  | .paren inner => inner.rowValues (depth + 1)
  | .binary left _ right => left.rowValues (depth + 1) ++ right.rowValues (depth + 1)
  | .call _ _ _ rows => rows.rowValues (depth + 1)

def Rows.rowValues (depth : Nat) : Rows → List (Nat × Block)
  | .nil => []
  | .cons _ value rest => (depth, value) :: value.rowValues depth ++ rest.rowValues depth

end

namespace Outline

theorem toList_rowStart_append (depth : Nat) (label text : String) :
    (rowStart depth label ++ text).toList = behindBars depth label.toList text.toList := by
  have hfield : (Text.padRight labelWidth label).toList = label.toList.rightpad 14 ' ' := by
    rw [Text.padRight, String.toList_append, Text.toList_copies, List.rightpad,
      String.length_toList]
    congr 1
    exact List.flatten_replicate_singleton
  rw [String.toList_append, rowStart, String.toList_append, String.toList_append,
    Text.toList_copies, hfield]
  rfl

/-- A headline starts with no blank, so it is the same whether the indentation is trimmed or
counted. -/
theorem toList_rowLines {b : Block} (h : b.Solid) (isOpen : Nat → Bool) (depth : Nat)
    (label : String) :
    (rowLines depth label (b.lines isOpen (depth + 1))).map String.toList =
      rowLayout depth label ((b.lines isOpen (depth + 1)).map String.toList) := by
  have hfirst : (indented (depth + 1) (b.headline isOpen)).toList.drop (2 * (depth + 1)) =
      (b.headline isOpen).toList := by
    rw [toList_indented, List.drop_left' List.length_replicate]
  rw [rowLines_lines h, b.lines_eq, List.map_cons, List.map_cons, rowLayout, hfirst,
    List.map_map, List.map_map, List.tail_cons, toList_rowStart_append]
  congr 2
  funext line
  exact toList_rowStart_append depth "" line

end Outline

mutual

theorem Block.toList_lines (isOpen : Nat → Bool) (depth : Nat) : (b : Block) → b.Solid →
    (b.lines isOpen depth).map String.toList = b.layout isOpen depth
  | .line text, _ => by
    rw [Block.lines, Block.layout, List.map_singleton, Outline.toList_indented, Outline.lineAt]
  | .paren inner, h => by
    have hinner := inner.toList_lines isOpen (depth + 1) h
    simp only [Block.lines, Block.layout, List.map_append, List.map_cons, List.map_nil, hinner,
      Outline.toList_indented, Outline.lineAt]
  | .binary left o right, h => by
    have hleft := left.toList_lines isOpen (depth + 1) h.1
    have hright := right.toList_lines isOpen (depth + 1) h.2
    simp only [Block.lines, Block.layout, List.map_append, List.map_cons, List.map_nil, hleft,
      hright, Outline.toList_indented, Outline.lineAt]
  | .call id function preview rows, h => by
    have hrows := rows.toList_lines isOpen depth h.2
    rw [Block.lines, Block.layout]
    split
    · simp only [List.map_append, List.map_cons, List.map_nil, hrows, Outline.toList_indented,
        Outline.lineAt]
    · rw [List.map_singleton, Outline.toList_indented, Outline.lineAt]

theorem Rows.toList_lines (isOpen : Nat → Bool) (depth : Nat) : (rs : Rows) → rs.Solid →
    (rs.lines isOpen depth).map String.toList = rs.layout isOpen depth
  | .nil, _ => rfl
  | .cons label value rest, h => by
    rw [Rows.lines, Rows.layout, List.map_append, Outline.toList_rowLines h.1,
      value.toList_lines isOpen (depth + 1) h.1, rest.toList_lines isOpen depth h.2]

end

mutual

theorem Block.solid_of_mem_rowValues {depth : Nat} {x : Nat × Block} : (b : Block) → b.Solid →
    x ∈ b.rowValues depth → x.2.Solid
  | .line _, _, hx => absurd hx List.not_mem_nil
  | .paren inner, h, hx => inner.solid_of_mem_rowValues h hx
  | .binary left _ right, h, hx => by
    rcases List.mem_append.mp hx with hx | hx
    · exact left.solid_of_mem_rowValues h.1 hx
    · exact right.solid_of_mem_rowValues h.2 hx
  | .call _ _ _ rows, h, hx => rows.solid_of_mem_rowValues h.2 hx

theorem Rows.solid_of_mem_rowValues {depth : Nat} {x : Nat × Block} : (rs : Rows) → rs.Solid →
    x ∈ rs.rowValues depth → x.2.Solid
  | .nil, _, hx => absurd hx List.not_mem_nil
  | .cons _ value rest, h, hx => by
    rw [Rows.rowValues, List.cons_append, List.mem_cons, List.mem_append] at hx
    rcases hx with rfl | hx | hx
    · exact h.1
    · exact value.solid_of_mem_rowValues h.1 hx
    · exact rest.solid_of_mem_rowValues h.2 hx

end

namespace Outline

/-- An outline as it is laid out: the header while it is visible, and the lines of the blocks. -/
def layout (o : Outline) : List Char :=
  List.intercalate ['\n']
    ((if o.headerVisible then [o.header.toList] else []) ++ o.root.layout o.isOpen 0)

theorem toList_text {o : Outline} (h : o.root.Solid) : o.text.toList = o.layout := by
  rw [text_eq_intercalate, String.toList_intercalate, lines, List.map_append,
    o.root.toList_lines o.isOpen 0 h, layout]
  cases o.headerVisible <;> rfl

/-- Trimming the first line of a value takes its indentation away and nothing else. -/
theorem trimStart_print {b : Block} (h : b.Solid) (isOpen : Nat → Bool) (depth : Nat)
    (printer : Printer) :
    ∃ first more text, ((b.print isOpen depth).run printer).1 = first :: more ∧
      first.toList = lineAt depth text ∧ Text.trimStart first = text ∧ Text.StartsSolid text := by
  have hsolid := h.headline isOpen
  have hprint : ((b.print isOpen depth).run printer).1 =
      indented depth (b.headline isOpen) :: (b.lines isOpen depth).tail := by
    rw [b.gives_print isOpen depth printer, ← b.lines_eq]
  exact ⟨_, _, b.headline isOpen, hprint, toList_indented depth _, trimStart_indented hsolid depth,
    hsolid⟩

/-- However a formula is folded, its text is laid out as if nothing were kept from line to line.
Requests in any order are answered as if nothing were kept, every slice that is asked for is in
range, and only what the deepest requests need is kept. The first line of a value in a row loses its
indentation and nothing else. -/
theorem text_eq_layout {settings : Settings} {source : String} {o : Outline}
    (h : ofSource settings source = .ok o) (folds : List Fold) :
    let p := o.after folds
    p.text.toList = p.layout ∧
    (∀ asked : List Printer.Request, ∃ printer : Printer,
      (asked.mapM Printer.answer).run {} = (asked.map Printer.Request.plain, printer) ∧
      printer.Keeps (Printer.deepestIndent asked) (Printer.mostBars asked) ∧
      ∀ r ∈ asked, 2 * r.indentDepth ≤ printer.indents.kept.length ∧
        2 * r.barDepth ≤ printer.bars.kept.length) ∧
    ∀ depth value, (depth, value) ∈ p.root.rowValues 0 → ∀ printer : Printer,
      ∃ first more text, ((value.print p.isOpen depth).run printer).1 = first :: more ∧
        first.toList = lineAt depth text ∧ Text.trimStart first = text ∧
        Text.StartsSolid text := by
  intro p
  obtain ⟨e, hparse, rfl⟩ := exists_ofSource h
  have hroot : p.root = Block.ofExpr settings.label 0 e :=
    root_after (numbered_ofExpr settings _ e) folds
  have hsolid : p.root.Solid := by
    rw [hroot]
    exact e.solid_ofExpr settings.label 0 (Formula.canonical_of_parse hparse).spelled
  refine ⟨toList_text hsolid, fun asked => ?_, fun depth value hvalue printer => ?_⟩
  · have hempty : Printer.Keeps {} 0 0 := ⟨rfl, rfl⟩
    obtain ⟨printer, hanswers, hkeeps⟩ := Printer.run_answers hempty asked
    exact ⟨printer, hanswers, hkeeps, fun r hr => Printer.Keeps.slices_in_range hkeeps hr⟩
  · exact trimStart_print (p.root.solid_of_mem_rowValues hsolid hvalue) p.isOpen depth printer

/-- A group, a sum and a closed call in the rows of a conditional. -/
theorem text_eq_layout_of_conditional :
    let source := "=IF(A1>0,-SUM(1),F(G(2),3))"
    let e : Expr := .call "IF" [.binary (.name "A1") .gt (.number "0"),
      .unary .minus (.call "SUM" [.number "1"]), .call "F" [.call "G" [.number "2"], .number "3"]]
    let o := ofExpr { locale := .en } (Text.trim source) e
    let p := o.after [.toggle 2]
    ofSource { locale := .en } source = .ok o ∧
      (p.text.toList = p.layout ∧
      (∀ asked : List Printer.Request, ∃ printer : Printer,
        (asked.mapM Printer.answer).run {} = (asked.map Printer.Request.plain, printer) ∧
        printer.Keeps (Printer.deepestIndent asked) (Printer.mostBars asked) ∧
        ∀ r ∈ asked, 2 * r.indentDepth ≤ printer.indents.kept.length ∧
          2 * r.barDepth ≤ printer.bars.kept.length) ∧
      ∀ depth value, (depth, value) ∈ p.root.rowValues 0 → ∀ printer : Printer,
        ∃ first more text, ((value.print p.isOpen depth).run printer).1 = first :: more ∧
          first.toList = lineAt depth text ∧ Text.trimStart first = text ∧
          Text.StartsSolid text) := by
  intro source e o p
  have hparse : Formula.parse source = .ok e := by cbv
  have hsource : ofSource { locale := .en } source = .ok o := ofSource_of_parse_ok hparse _
  exact ⟨hsource, text_eq_layout hsource _⟩

end Outline

end FormulaTree
