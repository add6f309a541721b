import FormulaTree.Outline.Page
import FormulaTree.Proofs.Markup.Reading
import FormulaTree.Proofs.Outline.MarkedTree

/-!
# What the HTML of an outline tells

The tags in the HTML of an outline tell the shape of the blocks, the numbers of the calls and their
marks, and no text can change them. The texts between the tags tell everything else, so the outline
is known from its HTML.
-/

namespace FormulaTree

open Markup (Part Attribute)

/-- A tree of blocks without its texts. -/
inductive Shape where
  | line
  | paren (inner : Shape)
  | binary (left right : Shape)
  | call (id : Nat) (isOpen : Bool) (rows : List Shape)

mutual

def Block.shape (isOpen : Nat → Bool) : Block → Shape
  | .line _ => .line
  | .paren inner => .paren (inner.shape isOpen)
  | .binary left _ right => .binary (left.shape isOpen) (right.shape isOpen)
  | .call id _ _ rows => .call id (isOpen id) (rows.shapes isOpen)

def Rows.shapes (isOpen : Nat → Bool) : Rows → List Shape
  | .nil => []
  | .cons _ value rest => value.shape isOpen :: rest.shapes isOpen

end

namespace Outline

/-- The tags of an element around those in it. -/
def around (tag : String) (attributes : List Attribute) (inner : List Part) : List Part :=
  .opening tag attributes :: (inner ++ [.closing tag])

def aroundClassed (tag name : String) (inner : List Part) : List Part :=
  around tag [⟨"class", some name⟩] inner

/-- The tags of a group in parentheses, by those in it. -/
def groupTags (body : List Part) : List Part :=
  aroundClassed "div" "formula-group"
    (around "div" [] [] ++ aroundClassed "div" "formula-body" body ++ around "div" [] [])

def callAttributes (id : Nat) (isOpen : Bool) : List Attribute :=
  ⟨"class", some "formula-call"⟩ :: ⟨"data-block", some (toString id)⟩
    :: if isOpen then [⟨"open", none⟩] else []

end Outline

open Outline in
mutual

/-- The tags of a block of the shape. -/
def Shape.tags : Shape → List Part
  | .line => aroundClassed "div" "formula-line" []
  | .paren inner => groupTags inner.tags
  | .binary left right => groupTags (left.tags ++ aroundClassed "div" "formula-op" [] ++ right.tags)
  | .call id isOpen rows =>
    around "details" (callAttributes id isOpen)
      (around "summary" []
          (aroundClassed "span" "formula-open" [] ++ aroundClassed "span" "formula-preview" [])
        ++ aroundClassed "div" "formula-body" (Shape.rowTags rows) ++ around "div" [] [])

def Shape.rowTags : List Shape → List Part
  | [] => []
  | value :: rest =>
    aroundClassed "div" "formula-row"
        (aroundClassed "span" "formula-label" [] ++ aroundClassed "div" "formula-value" value.tags)
      ++ Shape.rowTags rest

end

namespace Outline

def shape (o : Outline) : Shape :=
  o.root.shape o.isOpen

/-- The tags of a page whose blocks have the shape. -/
def pageTags (s : Shape) : List Part :=
  aroundClassed "div" "formula-wrapper"
    (around "style" [] []
      ++ around "div"
        [⟨"class", some "formula-header"⟩,
          ⟨"onclick", some "this.nextElementSibling.open=true"⟩]
        (aroundClassed "span" "formula-inline" [])
      ++ s.tags)

end Outline

/-! ## Tags -/

namespace Markup

def Part.isTag : Part → Bool
  | .text _ => false
  | _ => true

/-- The tags of HTML, in order. -/
def tagsOf (html : String) : List Part :=
  (partsOf html).filter Part.isTag

mutual

/-- The tags that a node is written with. -/
def tags : Markup → List Part
  | text _ | verbatim _ => []
  | element tag attributes children => Outline.around tag attributes (tagsAll children)

def tagsAll : List Markup → List Part
  | [] => []
  | m :: ms => m.tags ++ tagsAll ms

end

theorem filter_isTag_textParts (s : String) : (textParts s).filter Part.isTag = [] := by
  unfold textParts
  split <;> rfl

mutual

theorem filter_isTag_parts : (m : Markup) → m.parts.filter Part.isTag = m.tags
  | .text s | .verbatim s => filter_isTag_textParts s
  | .element tag attributes children => by
    rw [parts, tags, List.filter_cons, List.filter_append, filter_isTag_partsAll]
    rfl

theorem filter_isTag_partsAll : (ms : List Markup) →
    (partsAll ms).filter Part.isTag = tagsAll ms
  | [] => rfl
  | m :: ms => by
    rw [partsAll, tagsAll, List.filter_append, filter_isTag_parts, filter_isTag_partsAll]

end

theorem tags_classed (tag name : String) (children : List Markup) :
    (Outline.classed tag name children).tags = Outline.aroundClassed tag name (tagsAll children) :=
  rfl

theorem tags_group (body : List Markup) :
    (Outline.group body).tags = Outline.groupTags (tagsAll body) := by
  simp [Outline.group, Outline.groupTags, tags_classed, tags, tagsAll]

end Markup

mutual

theorem Block.tags_markup (isOpen : Nat → Bool) : (b : Block) →
    (b.markup isOpen).tags = (b.shape isOpen).tags
  | .line _ => rfl
  | .paren inner => by
    rw [Block.markup, Markup.tags_group, Block.shape, Shape.tags, ← inner.tags_markup]
    simp [Markup.tagsAll]
  | .binary left _ right => by
    rw [Block.markup, Markup.tags_group, Block.shape, Shape.tags, ← left.tags_markup,
      ← right.tags_markup]
    simp [Markup.tagsAll, Markup.tags_classed, Markup.tags]
  | .call id _ _ rows => by
    rw [Block.markup, Block.shape, Shape.tags, ← rows.tags_markup]
    simp [Markup.tagsAll, Markup.tags_classed, Markup.tags, Outline.callAttributes]

theorem Rows.tags_markup (isOpen : Nat → Bool) : (rs : Rows) →
    Markup.tagsAll (rs.markup isOpen) = Shape.rowTags (rs.shapes isOpen)
  | .nil => rfl
  | .cons _ value rest => by
    rw [Rows.markup, Rows.shapes, Shape.rowTags, ← value.tags_markup, ← rest.tags_markup]
    simp [Markup.tagsAll, Markup.tags_classed, Markup.tags]

end

namespace Outline

theorem tags_markup (o : Outline) : o.markup.tags = pageTags o.shape := by
  rw [markup, Markup.tags_classed, pageTags, shape, ← o.root.tags_markup]
  simp [Markup.tagsAll, Markup.tags_classed, Markup.tags]

/-! ## The tags of the calls -/

/-- Whether a tag opens the element of a call. -/
def opensCall : Part → Bool
  | .opening tag _ => tag = "details"
  | _ => false

/-- The tag that opens the element of a call. -/
def callTag (c : CallInfo) : Part :=
  .opening "details" (callAttributes c.id c.isOpen)

end Outline

open Outline in
mutual

theorem Block.filter_opensCall_tags (isOpen : Nat → Bool) (depth : Nat) : (b : Block) →
    (b.shape isOpen).tags.filter opensCall = (b.calls isOpen depth).map callTag
  | .line _ => rfl
  | .paren inner => by
    rw [Block.shape, Shape.tags, Block.calls, ← inner.filter_opensCall_tags]
    simp [groupTags, aroundClassed, around, opensCall]
  | .binary left _ right => by
    rw [Block.shape, Shape.tags, Block.calls, List.map_append, ← left.filter_opensCall_tags,
      ← right.filter_opensCall_tags]
    simp [groupTags, aroundClassed, around, opensCall]
  | .call id _ _ rows => by
    rw [Block.shape, Shape.tags, Block.calls, List.map_cons, ← rows.filter_opensCall_tags]
    simp [aroundClassed, around, opensCall, callTag]

theorem Rows.filter_opensCall_tags (isOpen : Nat → Bool) (depth : Nat) : (rs : Rows) →
    (Shape.rowTags (rs.shapes isOpen)).filter opensCall = (rs.calls isOpen depth).map callTag
  | .nil => rfl
  | .cons _ value rest => by
    rw [Rows.shapes, Shape.rowTags, Rows.calls, List.map_append, ← value.filter_opensCall_tags,
      ← rest.filter_opensCall_tags]
    simp [aroundClassed, around, opensCall]

end

theorem Outline.filter_opensCall_tags (o : Outline) :
    (Outline.pageTags o.shape).filter Outline.opensCall = o.calls.map Outline.callTag := by
  have hroot := o.root.filter_opensCall_tags o.isOpen 0
  rw [Outline.calls, ← hroot]
  simp [Outline.pageTags, Outline.aroundClassed, Outline.around, Outline.opensCall, Outline.shape]

/-! ## The page can be read back -/

namespace Markup

theorem readableAll_text (s : String) : ReadableAll [text s] :=
  ⟨trivial, fun _ n hn => by simp at hn, trivial⟩

theorem readableAll_cons {m : Markup} {ms : List Markup} (helement : m.isText = false)
    (h : m.Readable) (hs : ReadableAll ms) : ReadableAll (m :: ms) :=
  ⟨h, fun htext => by rw [helement] at htext; exact absurd htext Bool.false_ne_true, hs⟩

theorem readable_element {tag : String} {attributes : List Attribute} {children : List Markup}
    (htag : isName tag = true) (hraw : isRaw tag = false)
    (hattributes : ∀ a ∈ attributes, isName a.name = true) (h : ReadableAll children) :
    (element tag attributes children).Readable := by
  refine ⟨htag, hattributes, ?_⟩
  rw [hraw, if_neg Bool.false_ne_true]
  exact h

theorem readable_classed {tag : String} (htag : isName tag = true) (hraw : isRaw tag = false)
    (name : String) {children : List Markup} (h : ReadableAll children) :
    (Outline.classed tag name children).Readable := by
  have hclass : isName "class" = true := rfl
  refine readable_element htag hraw (fun a ha => ?_) h
  rw [List.mem_singleton.mp ha]
  exact hclass

theorem readable_plain {tag : String} (htag : isName tag = true) (hraw : isRaw tag = false)
    {children : List Markup} (h : ReadableAll children) : (element tag [] children).Readable :=
  readable_element htag hraw (fun _ ha => absurd ha List.not_mem_nil) h

theorem readable_group {body : List Markup} (h : ReadableAll body) :
    (Outline.group body).Readable := by
  have hmark (s : String) : (element "div" [] [text s]).Readable :=
    readable_plain rfl rfl (readableAll_text s)
  have hbody : (Outline.classed "div" "formula-body" body).Readable := readable_classed rfl rfl _ h
  apply readable_classed rfl rfl
  exact readableAll_cons rfl (hmark "(") (readableAll_cons rfl hbody
    (readableAll_cons rfl (hmark ")") trivial))

end Markup

theorem Block.isText_markup (isOpen : Nat → Bool) (b : Block) : (b.markup isOpen).isText = false := by
  cases b <;> rfl

open Markup in
mutual

theorem Block.readable_markup (isOpen : Nat → Bool) : (b : Block) → (b.markup isOpen).Readable
  | .line s => readable_classed rfl rfl _ (readableAll_text s)
  | .paren inner =>
    readable_group (readableAll_cons (inner.isText_markup isOpen) (inner.readable_markup isOpen)
      trivial)
  | .binary left o right => by
    have hop : (Outline.classed "div" "formula-op" [.text o.symbol]).Readable :=
      readable_classed rfl rfl _ (readableAll_text _)
    apply readable_group
    apply readableAll_cons (left.isText_markup isOpen) (left.readable_markup isOpen)
    apply readableAll_cons rfl hop
    exact readableAll_cons (right.isText_markup isOpen) (right.readable_markup isOpen) trivial
  | .call id f preview rows => by
    have hspan (name s : String) : (Outline.classed "span" name [.text s]).Readable :=
      readable_classed rfl rfl _ (readableAll_text s)
    have hsummary : (element "summary" [] [.text f, Outline.classed "span" "formula-open" [.text "("],
        Outline.classed "span" "formula-preview" [.text preview]]).Readable := by
      apply readable_plain rfl rfl
      refine ⟨trivial, fun _ n hn => by cases hn; rfl, ?_⟩
      exact readableAll_cons rfl (hspan _ _) (readableAll_cons rfl (hspan _ _) trivial)
    have hbody : (Outline.classed "div" "formula-body" (rows.markup isOpen)).Readable :=
      readable_classed rfl rfl _ (rows.readable_markup isOpen)
    have hmark : (element "div" [] [text ")"]).Readable :=
      readable_plain rfl rfl (readableAll_text _)
    have hattributes : ∀ a ∈ Outline.callAttributes id (isOpen id), isName a.name = true := by
      unfold Outline.callAttributes
      cases isOpen id <;> simp <;> decide
    apply readable_element rfl rfl hattributes
    exact readableAll_cons rfl hsummary (readableAll_cons rfl hbody (readableAll_cons rfl hmark trivial))

theorem Rows.readable_markup (isOpen : Nat → Bool) : (rs : Rows) →
    ReadableAll (rs.markup isOpen)
  | .nil => trivial
  | .cons label value rest => by
    have hlabel : (Outline.classed "span" "formula-label" [.text label]).Readable :=
      readable_classed rfl rfl _ (readableAll_text label)
    have hvalue : (Outline.classed "div" "formula-value" [value.markup isOpen]).Readable :=
      readable_classed rfl rfl _
        (readableAll_cons (value.isText_markup isOpen) (value.readable_markup isOpen) trivial)
    apply readableAll_cons rfl _ (rest.readable_markup isOpen)
    exact readable_classed rfl rfl _ (readableAll_cons rfl hlabel (readableAll_cons rfl hvalue trivial))

end

namespace Outline

theorem lt_not_mem_styleSheet : '<' ∉ styleSheet.toList := by
  unfold styleSheet
  rw [String.toList_append, String.toList_append, String.toList_append, List.mem_append,
    List.mem_append, List.mem_append]
  -- The rules are looked through one by one, each of which is short.
  rintro (((h | h) | h) | h) <;> exact absurd h (by decide +kernel)

open Markup in
theorem readable_markup (o : Outline) : o.markup.Readable := by
  have hstyle : (element "style" [] [.verbatim styleSheet]).Readable :=
    ⟨rfl, fun _ ha => absurd ha List.not_mem_nil, styleSheet, rfl, lt_not_mem_styleSheet⟩
  have hheader : (element "div" [⟨"class", some "formula-header"⟩,
      ⟨"onclick", some "this.nextElementSibling.open=true"⟩]
      [classed "span" "formula-inline" [.text o.header]]).Readable := by
    apply readable_element rfl rfl
    · simp
      decide
    · exact readableAll_cons rfl (readable_classed rfl rfl _ (readableAll_text _)) trivial
  have hroot : ReadableAll [o.root.markup o.isOpen] :=
    readableAll_cons (o.root.isText_markup o.isOpen) (o.root.readable_markup o.isOpen) trivial
  apply readable_classed rfl rfl
  exact readableAll_cons rfl hstyle (readableAll_cons rfl hheader hroot)

theorem partsOf_html (o : Outline) : Markup.partsOf o.html = o.markup.parts :=
  Markup.partsOf_write rfl o.readable_markup

theorem tagsOf_html (o : Outline) : Markup.tagsOf o.html = pageTags o.shape := by
  rw [Markup.tagsOf, partsOf_html, Markup.filter_isTag_parts, tags_markup]

theorem read?_html (o : Outline) : Markup.read? o.html = some o.markup.nodes :=
  Markup.read?_write rfl o.readable_markup

end Outline

end FormulaTree
