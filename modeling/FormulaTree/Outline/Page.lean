import FormulaTree.Markup
import FormulaTree.Outline.Basic

/-!
# Outlines as HTML

A call is a `details` element, open or closed as it is marked. Which of the header, the opening
parenthesis and the preview of a call can be seen is left to the style sheet, which looks at the
elements as they stand, so that the page stays right when a reader opens and closes calls in it.
-/

namespace FormulaTree

namespace Outline

/-- Shows the header only while a call at the root is closed, the parenthesis of a call only while
it is open, and its preview only while it is closed. -/
def styleSheet : String :=
  ".formula-header\x7bdisplay:none;cursor:pointer\x7d"
    ++ ".formula-wrapper:has(>details.formula-call:not([open]))>.formula-header\x7bdisplay:block\x7d"
    ++ "details.formula-call:not([open])>summary>.formula-open\x7bdisplay:none\x7d"
    ++ "details.formula-call[open]>summary>.formula-preview\x7bdisplay:none\x7d"

def classed (tag name : String) (children : List Markup) : Markup :=
  .element tag [⟨"class", some name⟩] children

/-- A group in parentheses. -/
def group (body : List Markup) : Markup :=
  classed "div" "formula-group"
    [.element "div" [] [.text "("], classed "div" "formula-body" body, .element "div" [] [.text ")"]]

end Outline

mutual

/-- The markup of a block, by whether a call is open. -/
def Block.markup (isOpen : Nat → Bool) : Block → Markup
  | .line text => Outline.classed "div" "formula-line" [.text text]
  | .paren inner => Outline.group [inner.markup isOpen]
  | .binary left o right =>
    Outline.group
      [left.markup isOpen, Outline.classed "div" "formula-op" [.text o.symbol], right.markup isOpen]
  | .call id function preview rows =>
    .element "details"
      (⟨"class", some "formula-call"⟩ :: ⟨"data-block", some (toString id)⟩
        :: if isOpen id then [⟨"open", none⟩] else [])
      [.element "summary" []
        [.text function, Outline.classed "span" "formula-open" [.text "("],
          Outline.classed "span" "formula-preview" [.text preview]],
        Outline.classed "div" "formula-body" (rows.markup isOpen),
        .element "div" [] [.text ")"]]

def Rows.markup (isOpen : Nat → Bool) : Rows → List Markup
  | .nil => []
  | .cons label value rest =>
    Outline.classed "div" "formula-row"
      [Outline.classed "span" "formula-label" [.text label],
        Outline.classed "div" "formula-value" [value.markup isOpen]] :: rest.markup isOpen

end

namespace Outline

/-- The markup of an outline. A click on the header opens the element behind it. -/
def markup (o : Outline) : Markup :=
  classed "div" "formula-wrapper"
    [.element "style" [] [.verbatim styleSheet],
      .element "div"
        [⟨"class", some "formula-header"⟩,
          ⟨"onclick", some "this.nextElementSibling.open=true"⟩]
        [classed "span" "formula-inline" [.text o.header]],
      o.root.markup o.isOpen]

def html (o : Outline) : String :=
  o.markup.write

end Outline

end FormulaTree
