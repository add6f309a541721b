import FormulaTree.Proofs.Markup.Visible
import FormulaTree.Proofs.Outline.Lines
import FormulaTree.Proofs.Outline.Page
import FormulaTree.Proofs.Outline.Printer
import FormulaTree.Proofs.RoundTrip

/-!
# The text and the page of an outline show the same

The text of an outline leaves out what is closed. The page holds everything and leaves it to the
style sheet what can be seen. Both show the same characters in the same order, apart from the
spaces, line feeds and bars of the layout.
-/

namespace FormulaTree

mutual

/-- The characters that are shown of a block, by whether a call is open. -/
def Block.shown (isOpen : Nat → Bool) : Block → List Char
  | .line text => text.toList
  | .paren inner => '(' :: (inner.shown isOpen ++ [')'])
  | .binary left o right =>
    '(' :: (left.shown isOpen ++ o.symbol.toList ++ right.shown isOpen ++ [')'])
  | .call id function preview rows =>
    if isOpen id then function.toList ++ '(' :: (rows.shown isOpen ++ [')'])
    else function.toList ++ preview.toList

def Rows.shown (isOpen : Nat → Bool) : Rows → List Char
  | .nil => []
  | .cons label value rest => label.toList ++ value.shown isOpen ++ rest.shown isOpen

end

def Outline.shown (o : Outline) : List Char :=
  (if o.headerVisible then o.header.toList else []) ++ o.root.shown o.isOpen

/-! ## The page -/

namespace Outline

/-- The rules of the style sheet. -/
def styleRules : List Markup.Rule :=
  let details (isOpen : Bool) : Markup.Compound :=
    { tag? := some "details", className? := some "formula-call", isOpen? := some isOpen }
  let summary : Markup.Compound := { tag? := some "summary" }
  let classed (name : String) : Markup.Compound := { className? := some name }
  [⟨[classed "formula-header"], [("display", "none"), ("cursor", "pointer")]⟩,
    ⟨[{ classed "formula-wrapper" with child? := some (details false).toSimple },
      classed "formula-header"], [("display", "block")]⟩,
    ⟨[details false, summary, classed "formula-open"], [("display", "none")]⟩,
    ⟨[details true, summary, classed "formula-preview"], [("display", "none")]⟩]

theorem join_write_styleRules : String.join (styleRules.map Markup.Rule.write) = styleSheet := by
  rfl

/-- Whether an element has a class that some rule is about. -/
def isStyled (m : Markup) : Bool :=
  ["formula-header", "formula-open", "formula-preview"].any fun name =>
    ({ className? := some name } : Markup.Simple).holds m

open Markup (display? visible visibleAll isHidden)

/-- A rule is about the last element of its path, so it leaves the others alone. -/
theorem display?_of_not_isStyled {m : Markup} (h : isStyled m = false) (around : List Markup) :
    display? styleRules (m :: around) = none := by
  simp only [isStyled, List.any_cons, List.any_nil, Bool.or_false, Bool.or_eq_false_iff] at h
  simp [display?, styleRules, Markup.Rule.applies, Markup.holdAll, Markup.Compound.holds, h]

/-- What is not styled can be seen wherever nothing around it is closed. -/
theorem isHidden_eq_false {m : Markup} {around : List Markup} (hstyled : isStyled m = false)
    (hstyle : m.hasTag "style" = false)
    (hfolded : m.hasTag "summary" = true ∨ around.head?.any Markup.isClosed = false) :
    isHidden styleRules m around = false := by
  rw [isHidden, display?_of_not_isStyled hstyled, hstyle]
  rcases hfolded with h | h <;> simp [h]

theorem visible_element {tag : String} {attributes : List Markup.Attribute} {children : List Markup}
    {around : List Markup} (h : isHidden styleRules (.element tag attributes children) around = false) :
    visible styleRules around (.element tag attributes children) =
      visibleAll styleRules (.element tag attributes children :: around) children := by
  rw [visible, h, if_neg Bool.false_ne_true]

theorem visible_text {s : String} {around : List Markup}
    (hopen : around.head?.any Markup.isClosed = false) :
    visible styleRules around (.text s) = s.toList := by
  have hhidden : isHidden styleRules (.text s) around = false :=
    isHidden_eq_false rfl rfl (.inr hopen)
  rw [visible, hhidden, if_neg Bool.false_ne_true]

theorem visible_classed {tag name : String} {children around : List Markup}
    (hstyled : isStyled (classed tag name children) = false)
    (hstyle : (classed tag name children).hasTag "style" = false)
    (hopen : around.head?.any Markup.isClosed = false) :
    visible styleRules around (classed tag name children) =
      visibleAll styleRules (classed tag name children :: around) children :=
  visible_element (isHidden_eq_false hstyled hstyle (.inr hopen))

theorem visible_label {tag name s : String} (around : List Markup)
    (hclosed : (classed tag name [.text s]).isClosed = false) :
    visible styleRules around (classed tag name [.text s]) =
      if isHidden styleRules (classed tag name [.text s]) around then [] else s.toList := by
  have htext : visible styleRules (classed tag name [.text s] :: around) (.text s) = s.toList :=
    visible_text hclosed
  rw [classed] at htext ⊢
  rw [visible, visibleAll, visibleAll, List.append_nil, htext]

theorem visible_classed_text {tag name s : String} {around : List Markup}
    (hstyled : isStyled (classed tag name [.text s]) = false)
    (hstyle : (classed tag name [.text s]).hasTag "style" = false)
    (hclosed : (classed tag name [.text s]).isClosed = false)
    (hopen : around.head?.any Markup.isClosed = false) :
    visible styleRules around (classed tag name [.text s]) = s.toList := by
  rw [visible_label around hclosed, isHidden_eq_false hstyled hstyle (.inr hopen),
    if_neg Bool.false_ne_true]

/-- A parenthesis of a group or of a call. -/
theorem visible_mark {s : String} {around : List Markup}
    (hopen : around.head?.any Markup.isClosed = false) :
    visible styleRules around (.element "div" [] [.text s]) = s.toList := by
  rw [visible_element (isHidden_eq_false rfl rfl (.inr hopen)), visibleAll, visibleAll,
    List.append_nil, visible_text rfl]

/-- The elements around what stands in a group. -/
def inGroup (body around : List Markup) : List Markup :=
  classed "div" "formula-body" body :: group body :: around

theorem visible_group {body around : List Markup}
    (hopen : around.head?.any Markup.isClosed = false) :
    visible styleRules around (group body) =
      '(' :: (visibleAll styleRules (inGroup body around) body ++ [')']) := by
  have hbody : visible styleRules (group body :: around) (classed "div" "formula-body" body) =
      visibleAll styleRules (inGroup body around) body :=
    visible_classed rfl rfl rfl
  rw [group, visible_classed rfl rfl hopen]
  simp only [visibleAll]
  rw [visible_mark rfl, visible_mark rfl]
  rw [group] at hbody
  rw [hbody]
  rfl

/-- The element of a call. -/
def callElement (id : Nat) (isOpen : Bool) (children : List Markup) : Markup :=
  .element "details" (callAttributes id isOpen) children

/-- What of a call can be seen as long as it is closed, and more than that while it is open. -/
def summary (function preview : String) : Markup :=
  .element "summary" [] [.text function, classed "span" "formula-open" [.text "("],
    classed "span" "formula-preview" [.text preview]]

theorem isHidden_open (id : Nat) (isOpen : Bool) (f preview : String) (children around : List Markup) :
    isHidden styleRules (classed "span" "formula-open" [.text "("])
      (summary f preview :: callElement id isOpen children :: around) = !isOpen := by
  cases isOpen <;> rfl

theorem isHidden_preview (id : Nat) (isOpen : Bool) (f preview : String)
    (children around : List Markup) :
    isHidden styleRules (classed "span" "formula-preview" [.text preview])
      (summary f preview :: callElement id isOpen children :: around) = isOpen := by
  cases isOpen <;> rfl

theorem visible_summary (id : Nat) (isOpen : Bool) (f preview : String)
    (children around : List Markup) :
    visible styleRules (callElement id isOpen children :: around) (summary f preview) =
      f.toList ++ (if isOpen then "(" else preview).toList := by
  have hname : visible styleRules (summary f preview :: callElement id isOpen children :: around)
      (.text f) = f.toList :=
    visible_text rfl
  have hsummary : isHidden styleRules (summary f preview) (callElement id isOpen children :: around)
      = false :=
    isHidden_eq_false rfl rfl (.inl rfl)
  have hopen := isHidden_open id isOpen f preview children around
  have hpreview := isHidden_preview id isOpen f preview children around
  rw [summary] at hname hsummary hopen hpreview ⊢
  rw [visible_element hsummary]
  simp only [visibleAll]
  rw [hname, visible_label _ rfl, visible_label _ rfl, hopen, hpreview]
  cases isOpen <;> simp

/-- Everything in a closed call but its summary is hidden. -/
theorem visible_eq_nil {m : Markup} {around : List Markup}
    (hclosed : around.head?.any Markup.isClosed = true) (hsummary : m.hasTag "summary" = false) :
    visible styleRules around m = [] := by
  have hhidden : isHidden styleRules m around = true := by
    rw [isHidden, hclosed, hsummary]
    rfl
  cases m <;> rw [visible, if_pos hhidden]

theorem isStyled_callElement (id : Nat) (isOpen : Bool) (children : List Markup) :
    isStyled (callElement id isOpen children) = false := by
  cases isOpen <;> rfl

/-- A call shows its rows while it is open. -/
theorem visible_call (id : Nat) (isOpen : Bool) (f preview : String) {rows around : List Markup}
    (hopen : around.head?.any Markup.isClosed = false) {shown : List Char}
    (hrows : ∀ around, around.head?.any Markup.isClosed = false →
      visibleAll styleRules around rows = shown) :
    visible styleRules around (callElement id isOpen [summary f preview,
        classed "div" "formula-body" rows, .element "div" [] [.text ")"]]) =
      f.toList ++ if isOpen then '(' :: (shown ++ [')']) else preview.toList := by
  have hcall := isHidden_eq_false (isStyled_callElement id isOpen [summary f preview,
    classed "div" "formula-body" rows, .element "div" [] [.text ")"]]) rfl (.inr hopen)
  rw [callElement] at hcall ⊢
  rw [visible_element hcall, ← callElement]
  simp only [visibleAll]
  rw [visible_summary]
  cases isOpen with
  | true =>
    rw [visible_classed rfl rfl rfl, visible_mark rfl, hrows _ rfl]
    simp
  | false =>
    rw [visible_eq_nil rfl rfl, visible_eq_nil rfl rfl]
    simp

end Outline

mutual

theorem Block.visible_markup (isOpen : Nat → Bool) : (b : Block) → {around : List Markup} →
    around.head?.any Markup.isClosed = false →
    Markup.visible Outline.styleRules around (b.markup isOpen) = b.shown isOpen
  | .line s, _, hopen => Outline.visible_classed_text rfl rfl rfl hopen
  | .paren inner, around, hopen => by
    rw [Block.markup, Outline.visible_group hopen, Block.shown, Markup.visibleAll, Markup.visibleAll,
      List.append_nil, inner.visible_markup isOpen rfl]
  | .binary left o right, around, hopen => by
    rw [Block.markup, Outline.visible_group hopen, Block.shown]
    simp only [Markup.visibleAll]
    rw [left.visible_markup isOpen rfl, Outline.visible_classed_text rfl rfl rfl rfl,
      right.visible_markup isOpen rfl]
    simp
  | .call id f preview rows, around, hopen => by
    have hcall := Outline.visible_call id (isOpen id) f preview hopen
      fun _ => rows.visible_markup isOpen
    rw [Block.shown, ← apply_ite (f.toList ++ ·), ← hcall]
    rfl

theorem Rows.visible_markup (isOpen : Nat → Bool) : (rs : Rows) → {around : List Markup} →
    around.head?.any Markup.isClosed = false →
    Markup.visibleAll Outline.styleRules around (rs.markup isOpen) = rs.shown isOpen
  | .nil, _, _ => rfl
  | .cons label value rest, around, hopen => by
    rw [Rows.markup, Rows.shown, Markup.visibleAll, rest.visible_markup isOpen hopen,
      Outline.visible_classed rfl rfl hopen]
    simp only [Markup.visibleAll]
    rw [Outline.visible_classed_text rfl rfl rfl rfl, Outline.visible_classed rfl rfl rfl]
    simp only [Markup.visibleAll]
    rw [value.visible_markup isOpen rfl]
    simp

end

namespace Outline

open Markup (visible visibleAll isHidden)

/-- The element of the header, which a click opens the call behind. -/
def headerElement (header : String) : Markup :=
  .element "div"
    [⟨"class", some "formula-header"⟩, ⟨"onclick", some "this.nextElementSibling.open=true"⟩]
    [classed "span" "formula-inline" [.text header]]

/-- The style sheet shows the header exactly while it is visible in the text. -/
theorem isHidden_header (o : Outline) :
    isHidden styleRules (headerElement o.header) [o.markup] = !o.headerVisible := by
  rw [headerVisible, markup]
  cases o.root with
  | call id f preview rows =>
    show _ = !!o.isOpen id
    rw [Block.markup]
    cases o.isOpen id <;> rfl
  | line _ | paren _ | binary _ _ _ => rfl

theorem visible_markup (o : Outline) : visible styleRules [] o.markup = o.shown := by
  have hstyle : visible styleRules [o.markup] (.element "style" [] [.verbatim styleSheet]) = [] := by
    rw [visible]
    exact if_pos rfl
  have hheader : visible styleRules [o.markup] (headerElement o.header) =
      if o.headerVisible then o.header.toList else [] := by
    have hhidden := o.isHidden_header
    have hinline : visible styleRules [headerElement o.header, o.markup]
        (classed "span" "formula-inline" [.text o.header]) = o.header.toList :=
      visible_classed_text rfl rfl rfl rfl
    rw [headerElement] at hhidden hinline ⊢
    rw [visible, hhidden, visibleAll, visibleAll, List.append_nil, hinline]
    cases o.headerVisible <;> rfl
  have hroot : visible styleRules [o.markup] (o.root.markup o.isOpen) = o.root.shown o.isOpen :=
    o.root.visible_markup o.isOpen rfl
  -- The page is no call itself, so nothing right inside of it is closed.
  have hpage : visible styleRules [] o.markup =
      visible styleRules [o.markup] (.element "style" [] [.verbatim styleSheet]) ++
        (visible styleRules [o.markup] (headerElement o.header) ++
          (visible styleRules [o.markup] (o.root.markup o.isOpen) ++ [])) :=
    visible_classed rfl rfl rfl
  rw [hpage, hstyle, hheader, hroot, List.append_nil, List.nil_append, shown]

end Outline

/-! ## The text -/

namespace Outline

/-- The characters of a text that do not belong to the layout. -/
def content (cs : List Char) : List Char :=
  cs.filter fun c => c ≠ ' ' ∧ c ≠ '\n' ∧ c ≠ '|'

@[simp] theorem content_append (cs ds : List Char) : content (cs ++ ds) = content cs ++ content ds :=
  List.filter_append cs ds

theorem content_copies {s : String} (h : content s.toList = []) (n : Nat) :
    content (Text.copies n s).toList = [] := by
  rw [Text.toList_copies]
  induction n with
  | zero => rfl
  | succ n ih => rw [List.replicate_succ, List.flatten_cons, content_append, h, ih, List.nil_append]

theorem content_indented (depth : Nat) (s : String) :
    content (indented depth s).toList = content s.toList := by
  rw [indented, String.toList_append, content_append, content_copies rfl, List.nil_append]

/-- Of the front of a row only the label belongs to the content. -/
theorem content_rowStart (depth : Nat) (label : String) :
    content (rowStart depth label).toList = content label.toList := by
  have hgutter : content gutter.toList = [] := rfl
  simp only [rowStart, Text.padRight, String.toList_append, content_append]
  rw [content_copies rfl, content_copies rfl, hgutter, List.append_nil, List.append_nil,
    List.nil_append]

/-- The content of some lines. -/
def contentOfLines (ls : List String) : List Char :=
  ls.flatMap fun l => content l.toList

theorem content_intercalate (ls : List String) :
    content ("\n".intercalate ls).toList = contentOfLines ls := by
  cases ls with
  | nil => rfl
  | cons l ls =>
    rw [Expr.toList_intercalate_cons, content_append, contentOfLines, List.flatMap_cons]
    congr 1
    induction ls with
    | nil => rfl
    | cons m ms ih =>
      have hnewline : content "\n".toList = [] := rfl
      rw [List.flatMap_cons, content_append, content_append, ih, hnewline, List.nil_append,
        List.flatMap_cons]

theorem contentOfLines_append (ls ms : List String) :
    contentOfLines (ls ++ ms) = contentOfLines ls ++ contentOfLines ms :=
  List.flatMap_append

theorem contentOfLines_cons (l : String) (ls : List String) :
    contentOfLines (l :: ls) = content l.toList ++ contentOfLines ls :=
  List.flatMap_cons

theorem content_group (cs : List Char) :
    content ('(' :: (cs ++ [')'])) = '(' :: (content cs ++ [')']) := by
  show '(' :: content (cs ++ [')']) = _
  rw [content_append]
  rfl

theorem contentOfLines_group (depth : Nat) (ls : List String) :
    contentOfLines (indented depth "(" :: (ls ++ [indented depth ")"])) =
      '(' :: (contentOfLines ls ++ [')']) := by
  rw [contentOfLines_cons, contentOfLines_append, contentOfLines_cons, content_indented,
    content_indented]
  rfl

/-- A row shows its label and its value. -/
theorem contentOfLines_rowLines {b : Block} (h : b.Solid) (isOpen : Nat → Bool) (depth : Nat)
    (label : String) :
    contentOfLines (rowLines depth label (b.lines isOpen (depth + 1))) =
      content label.toList ++ contentOfLines (b.lines isOpen (depth + 1)) := by
  have hlines := b.lines_eq isOpen (depth + 1)
  have hblank : content (rowStart depth "").toList = [] := content_rowStart depth ""
  have hfurther : ∀ ls : List String,
      contentOfLines (ls.map (rowStart depth "" ++ ·)) = contentOfLines ls := by
    intro ls
    induction ls with
    | nil => rfl
    | cons l ls ih =>
      rw [List.map_cons, contentOfLines_cons, contentOfLines_cons, ih, String.toList_append,
        content_append, hblank, List.nil_append]
  rw [rowLines_lines h, contentOfLines_cons, hfurther, String.toList_append, content_append,
    content_rowStart, List.append_assoc]
  congr 1
  conv_rhs => rw [hlines, contentOfLines_cons, content_indented]

end Outline

open Outline in
mutual

/-- The lines of a block have the content that is shown of it. -/
theorem Block.contentOfLines_lines (isOpen : Nat → Bool) (depth : Nat) : (b : Block) → b.Solid →
    contentOfLines (b.lines isOpen depth) = content (b.shown isOpen)
  | .line s, _ => by
    rw [Block.lines, contentOfLines_cons, content_indented, Block.shown]
    exact List.append_nil _
  | .paren inner, h => by
    have hinner := inner.contentOfLines_lines isOpen (depth + 1) h
    rw [Block.lines, List.cons_append, contentOfLines_group, hinner, Block.shown, content_group]
  | .binary left o right, h => by
    have hleft := left.contentOfLines_lines isOpen (depth + 1) h.1
    have hright := right.contentOfLines_lines isOpen (depth + 1) h.2
    rw [Block.lines, List.cons_append, List.cons_append, contentOfLines_group,
      contentOfLines_append, contentOfLines_cons, content_indented, hleft, hright, Block.shown,
      content_group, content_append, content_append]
    simp only [List.append_assoc]
  | .call id f preview rows, h => by
    have hrows := rows.contentOfLines_lines isOpen depth h.2
    rw [Block.lines, Block.shown]
    by_cases hopen : isOpen id = true
    · -- The lines are those of a group, but for the name in front of the first.
      have hbody := contentOfLines_group depth (rows.lines isOpen depth)
      rw [contentOfLines_cons, content_indented, hrows] at hbody
      rw [if_pos hopen, if_pos hopen, List.cons_append, contentOfLines_cons, content_indented,
        String.toList_append, content_append, content_append, content_group, List.append_assoc,
        hbody]
    · rw [if_neg hopen, if_neg hopen, contentOfLines_cons, content_indented, String.toList_append]
      exact List.append_nil _

theorem Rows.contentOfLines_lines (isOpen : Nat → Bool) (depth : Nat) : (rs : Rows) → rs.Solid →
    contentOfLines (rs.lines isOpen depth) = content (rs.shown isOpen)
  | .nil, _ => rfl
  | .cons label value rest, h => by
    have hvalue := value.contentOfLines_lines isOpen (depth + 1) h.1
    have hrest := rest.contentOfLines_lines isOpen depth h.2
    rw [Rows.lines, contentOfLines_append, contentOfLines_rowLines h.1, hvalue, hrest, Rows.shown,
      content_append, content_append]

end

namespace Outline

/-- The text of an outline has the content that is shown of it. -/
theorem content_text {o : Outline} (h : o.root.Solid) : content o.text.toList = content o.shown := by
  have hroot := o.root.contentOfLines_lines o.isOpen 0 h
  rw [text_eq_intercalate, content_intercalate, lines, contentOfLines_append, hroot, shown,
    content_append]
  congr 1
  cases o.headerVisible with
  | true => exact List.append_nil _
  | false => rfl

/-- Whatever calls of a formula are open, its page shows the content of its text. What is shown of
the page is settled by its own style sheet. -/
theorem page_shows_text {settings : Settings} {source : String} {o : Outline}
    (h : ofSource settings source = .ok o) (folds : List Fold) :
    let p := o.after folds
    styleSheet = String.join (styleRules.map Markup.Rule.write) ∧
      ∃ page, Markup.read? p.html = some page ∧
        content (Markup.visibleAll styleRules [] page) = content p.text.toList := by
  intro p
  obtain ⟨e, hparse, rfl⟩ := exists_ofSource h
  have hroot : p.root = (ofExpr settings (Text.trim source) e).root :=
    root_after (numbered_ofExpr settings _ e) folds
  have hsolid : p.root.Solid := by
    rw [hroot]
    exact e.solid_ofExpr settings.label 0 (Formula.canonical_of_parse hparse).spelled
  refine ⟨join_write_styleRules.symm, p.markup.nodes, p.read?_html, ?_⟩
  have hshown := Markup.visibleAll_nodes styleRules [] p.markup
  rw [p.visible_markup] at hshown
  rw [content_text hsolid, ← hshown]
  rfl

/-- A closed call inside a closed root, under the formula without its blanks. -/
theorem page_shows_text_of_closed_root :
    let source := " =SUM(\"a<b\", ABS(-1))\n"
    let e : Expr := .call "SUM" [.string "a<b", .call "ABS" [.unary .minus (.number "1")]]
    let o := ofExpr {} (Text.trim source) e
    let p := o.after [.toggle 1, .setOpen 0 false]
    ofSource {} source = .ok o ∧ p.headerVisible = true ∧
      (styleSheet = String.join (styleRules.map Markup.Rule.write) ∧
        ∃ page, Markup.read? p.html = some page ∧
          content (Markup.visibleAll styleRules [] page) = content p.text.toList) := by
  intro source e o p
  have hparse : Formula.parse source = .ok e := by cbv
  have hsource : ofSource {} source = .ok o := by
    rw [ofSource, hparse]
    rfl
  exact ⟨hsource, rfl, page_shows_text hsource _⟩

end Outline

end FormulaTree
