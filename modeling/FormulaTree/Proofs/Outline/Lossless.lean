import FormulaTree.Proofs.Outline.Page

/-!
# The outline behind a page

No two outlines have the same HTML: what is read back from it has every text, every number and every
mark in a place of its own.
-/

namespace FormulaTree

namespace Markup

theorem nodes_classed (tag name : String) (children : List Markup) :
    (Outline.classed tag name children).nodes = [Outline.classed tag name (nodesAll children)] :=
  rfl

theorem element_inj {tag tag' : String} {attributes attributes' : List Attribute}
    {children children' : List Markup}
    (h : (element tag attributes children).nodes = (element tag' attributes' children').nodes) :
    attributes = attributes' ∧ nodesAll children = nodesAll children' := by
  have hnodes : [element tag attributes (nodesAll children)] =
      [element tag' attributes' (nodesAll children')] := h
  simp only [List.cons.injEq, element.injEq] at hnodes
  exact ⟨hnodes.1.2.1, hnodes.1.2.2⟩

theorem nodesAll_singleton (m : Markup) : nodesAll [m] = m.nodes :=
  List.append_nil _

theorem nodes_group (body : List Markup) :
    (Outline.group body).nodes = [Outline.group (nodesAll body)] := by
  simp [Outline.group, nodes_classed, nodes, nodesAll]

theorem nodes_text_inj {s t : String} (h : (text s).nodes = (text t).nodes) : s = t := by
  unfold nodes at h
  by_cases hs : s = "" <;> by_cases ht : t = "" <;> simp_all

theorem classed_inj {tag name : String} {children children' : List Markup}
    (h : (Outline.classed tag name children).nodes = (Outline.classed tag name children').nodes) :
    nodesAll children = nodesAll children' := by
  exact (element_inj h).2

theorem classed_text_inj {tag name s t : String}
    (h : (Outline.classed tag name [text s]).nodes = (Outline.classed tag name [text t]).nodes) :
    s = t := by
  have hnodes := classed_inj h
  rw [nodesAll_singleton, nodesAll_singleton] at hnodes
  exact nodes_text_inj hnodes

theorem group_inj {body body' : List Markup}
    (h : (Outline.group body).nodes = (Outline.group body').nodes) :
    nodesAll body = nodesAll body' := by
  rw [nodes_group, nodes_group] at h
  simpa [Outline.group, Outline.classed] using h

/-- Lists of elements are read back element by element. -/
theorem nodesAll_cons_inj {m n : Markup} {ms ns : List Markup} (hm : m.isText = false)
    (hn : n.isText = false) (h : nodesAll (m :: ms) = nodesAll (n :: ns)) :
    m.nodes = n.nodes ∧ nodesAll ms = nodesAll ns := by
  cases m with
  | element tag attributes children =>
    cases n with
    | element tag' attributes' children' =>
      have hcons : element tag attributes (nodesAll children) :: nodesAll ms =
          element tag' attributes' (nodesAll children') :: nodesAll ns := h
      obtain ⟨hhead, htail⟩ := List.cons.inj hcons
      exact ⟨congrArg (fun m => [m]) hhead, htail⟩
    | text s | verbatim s => exact absurd hn (by simp [isText])
  | text s | verbatim s => exact absurd hm (by simp [isText])

end Markup

theorem Outline.callAttributes_inj {id id' : Nat} {b b' : Bool}
    (h : callAttributes id b = callAttributes id' b') : id = id' ∧ b = b' := by
  simp only [callAttributes, List.cons.injEq, Markup.Attribute.mk.injEq, Option.some.injEq,
    true_and] at h
  obtain ⟨hid, hopen⟩ := h
  refine ⟨Nat.repr_inj.mp hid, ?_⟩
  cases b <;> cases b' <;> simp_all

open Markup in
mutual

/-- A block and its marks are known from its markup. -/
theorem Block.marked_eq_of_nodes {isOpen isOpen' : Nat → Bool} : (b b' : Block) →
    (b.markup isOpen).nodes = (b'.markup isOpen').nodes → b.marked isOpen = b'.marked isOpen'
  | .line s, .line t, h => by
    have htext : s = t := classed_text_inj h
    rw [htext]
    rfl
  | .paren inner, .paren inner', h => by
    have hbody := group_inj h
    rw [nodesAll_singleton, nodesAll_singleton] at hbody
    rw [Block.marked, Block.marked, inner.marked_eq_of_nodes inner' hbody]
  | .binary left o right, .binary left' o' right', h => by
    have hbody := group_inj h
    obtain ⟨hleft, hbody⟩ := nodesAll_cons_inj (Block.isText_markup _ _) (Block.isText_markup _ _) hbody
    obtain ⟨ho, hbody⟩ := nodesAll_cons_inj rfl rfl hbody
    obtain ⟨hright, -⟩ := nodesAll_cons_inj (Block.isText_markup _ _) (Block.isText_markup _ _) hbody
    have hsymbol : o.symbol = o'.symbol := classed_text_inj ho
    rw [Block.marked, Block.marked, left.marked_eq_of_nodes left' hleft,
      right.marked_eq_of_nodes right' hright, BinaryOp.symbol_injective hsymbol]
  | .call id f preview rows, .call id' f' preview' rows', h => by
    obtain ⟨hattributes, hchildren⟩ := element_inj h
    obtain ⟨hid, hopen⟩ := Outline.callAttributes_inj hattributes
    obtain ⟨hsummary, hchildren⟩ := nodesAll_cons_inj rfl rfl hchildren
    obtain ⟨hbody, -⟩ := nodesAll_cons_inj rfl rfl hchildren
    have hrows := rows.marked_eq_of_nodes rows' (classed_inj hbody)
    -- The name stands before two elements, which tell where it ends.
    obtain ⟨hname, hspans⟩ := List.append_inj' (element_inj hsummary).2 rfl
    obtain ⟨-, hspans⟩ := nodesAll_cons_inj rfl rfl hspans
    obtain ⟨hpreview, -⟩ := nodesAll_cons_inj rfl rfl hspans
    have hf : f = f' := nodes_text_inj hname
    have hpreview' : preview = preview' := classed_text_inj hpreview
    rw [Block.marked, Block.marked, hrows, hid, hf, hpreview', ← hid, hopen, hid]
  | .paren inner, .binary left o right, h => by
    have hbody := group_inj h
    obtain ⟨-, hbody⟩ := nodesAll_cons_inj (Block.isText_markup _ _) (Block.isText_markup _ _) hbody
    exact absurd hbody (by simp [nodesAll, nodes_classed])
  | .binary left o right, .paren inner, h => by
    have hbody := group_inj h
    obtain ⟨-, hbody⟩ := nodesAll_cons_inj (Block.isText_markup _ _) (Block.isText_markup _ _) hbody
    exact absurd hbody (by simp [nodesAll, nodes_classed])
  | .line _, .paren _, h | .line _, .binary _ _ _, h | .line _, .call _ _ _ _, h
  | .paren _, .line _, h | .paren _, .call _ _ _ _, h
  | .binary _ _ _, .line _, h | .binary _ _ _, .call _ _ _ _, h
  | .call _ _ _ _, .line _, h | .call _ _ _ _, .paren _, h | .call _ _ _ _, .binary _ _ _, h => by
    simp [Block.markup, Outline.group, Outline.classed, nodes] at h

theorem Rows.marked_eq_of_nodes {isOpen isOpen' : Nat → Bool} : (rs rs' : Rows) →
    nodesAll (rs.markup isOpen) = nodesAll (rs'.markup isOpen') →
      rs.marked isOpen = rs'.marked isOpen'
  | .nil, .nil, _ => rfl
  | .cons label value rest, .cons label' value' rest', h => by
    obtain ⟨hrow, hrest⟩ := nodesAll_cons_inj rfl rfl h
    obtain ⟨hlabel, hrow⟩ := nodesAll_cons_inj rfl rfl (classed_inj hrow)
    obtain ⟨hvalue, -⟩ := nodesAll_cons_inj rfl rfl hrow
    have hlabel' : label = label' := classed_text_inj hlabel
    have hblock := classed_inj hvalue
    rw [nodesAll_singleton, nodesAll_singleton] at hblock
    rw [Rows.marked, Rows.marked, hlabel', value.marked_eq_of_nodes value' hblock,
      rest.marked_eq_of_nodes rest' hrest]
  | .nil, .cons _ _ _, h | .cons _ _ _, .nil, h => by
    simp [Rows.markup, nodesAll, nodes_classed] at h

end

mutual

/-- A numbered block and its marks are known from the tree that holds them. -/
theorem Block.eq_of_marked {isOpen isOpen' : Nat → Bool} : {first : Nat} → (b b' : Block) →
    b.Numbered first → b.marked isOpen = b'.marked isOpen' →
    b = b' ∧ AgreeOn first b.callCount isOpen isOpen'
  | first, .line s, b', _, hmarked => by
    cases b' with
    | line t =>
      obtain rfl := MarkedBlock.line.inj hmarked
      refine ⟨rfl, fun id hle hlt => ?_⟩
      rw [Block.callCount] at hlt
      omega
    | paren _ | binary _ _ _ | call _ _ _ _ => exact MarkedBlock.noConfusion hmarked
  | _, .paren inner, b', h, hmarked => by
    cases b' with
    | paren inner' =>
      obtain ⟨rfl, hagree⟩ := inner.eq_of_marked inner' h (MarkedBlock.paren.inj hmarked)
      exact ⟨rfl, hagree⟩
    | line _ | binary _ _ _ | call _ _ _ _ => exact MarkedBlock.noConfusion hmarked
  | _, .binary left o right, b', h, hmarked => by
    cases b' with
    | binary left' o' right' =>
      obtain ⟨hleft, rfl, hright⟩ := MarkedBlock.binary.inj hmarked
      obtain ⟨rfl, hagreeLeft⟩ := left.eq_of_marked left' h.1 hleft
      obtain ⟨rfl, hagreeRight⟩ := right.eq_of_marked right' h.2 hright
      exact ⟨rfl, hagreeLeft.append hagreeRight⟩
    | line _ | paren _ | call _ _ _ _ => exact MarkedBlock.noConfusion hmarked
  | first, .call id f preview rows, b', h, hmarked => by
    cases b' with
    | call id' f' preview' rows' =>
      obtain ⟨rfl, rfl, rfl, hopen, hrows⟩ := MarkedBlock.call.inj hmarked
      obtain ⟨rfl, hagree⟩ := rows.eq_of_marked rows' h.2 hrows
      rw [h.1] at hopen
      exact ⟨rfl, .cons hopen hagree⟩
    | line _ | paren _ | binary _ _ _ => exact MarkedBlock.noConfusion hmarked

theorem Rows.eq_of_marked {isOpen isOpen' : Nat → Bool} : {first : Nat} → (rs rs' : Rows) →
    rs.Numbered first → rs.marked isOpen = rs'.marked isOpen' →
    rs = rs' ∧ AgreeOn first rs.callCount isOpen isOpen'
  | first, .nil, rs', _, hmarked => by
    cases rs' with
    | nil =>
      refine ⟨rfl, fun id hle hlt => ?_⟩
      rw [Rows.callCount] at hlt
      omega
    | cons _ _ _ => exact MarkedRows.noConfusion hmarked
  | _, .cons label value rest, rs', h, hmarked => by
    cases rs' with
    | cons label' value' rest' =>
      obtain ⟨rfl, hvalue, hrest⟩ := MarkedRows.cons.inj hmarked
      obtain ⟨rfl, hagreeValue⟩ := value.eq_of_marked value' h.1 hvalue
      obtain ⟨rfl, hagreeRest⟩ := rest.eq_of_marked rest' h.2 hrest
      exact ⟨rfl, hagreeValue.append hagreeRest⟩
    | nil => exact MarkedRows.noConfusion hmarked

end

namespace Outline

variable {o p : Outline}

theorem eq_of_marked (h : o.root.Numbered 0) (hheader : o.header = p.header)
    (hmarked : o.marked = p.marked) : o = p := by
  obtain ⟨hroot, hagree⟩ := o.root.eq_of_marked p.root h hmarked
  have hlength : o.bits.length = p.bits.length := by
    rw [length_bits, length_bits, hroot]
  apply eq_of_bits_eq hheader hroot
  apply List.ext_getElem hlength
  intro id hid hid'
  have hopen : o.isOpen id = p.isOpen id := by
    apply hagree id (Nat.zero_le id)
    rw [length_bits] at hid
    omega
  rw [isOpen_eq_bits, isOpen_eq_bits, List.getElem?_eq_getElem hid,
    List.getElem?_eq_getElem hid'] at hopen
  exact hopen

open Markup in
/-- The header, the blocks and the marks are known from the page. -/
theorem header_and_marked_of_html (h : o.html = p.html) :
    o.header = p.header ∧ o.marked = p.marked := by
  have hread := congrArg read? h
  rw [read?_html, read?_html] at hread
  have hpage := classed_inj (Option.some.inj hread)
  obtain ⟨-, hpage⟩ := nodesAll_cons_inj rfl rfl hpage
  obtain ⟨hheader, hroot⟩ := nodesAll_cons_inj rfl rfl hpage
  have hinline := (element_inj hheader).2
  rw [nodesAll_singleton, nodesAll_singleton] at hinline hroot
  exact ⟨classed_text_inj hinline, o.root.marked_eq_of_nodes p.root hroot⟩

/-- No text of an outline gets into the tags of its HTML, and none is lost in it. -/
theorem html_faithful (settings settings' : Settings) (header header' : String) (e e' : Expr)
    (folds folds' : List Fold) :
    let o := (ofExpr settings header e).after folds
    let p := (ofExpr settings' header' e').after folds'
    (Markup.nested [] (Markup.partsOf o.html) = true ∧
      Markup.tagsOf o.html = pageTags o.shape ∧
      (Markup.tagsOf o.html).filter opensCall = o.calls.map callTag ∧
      o.calls.map CallInfo.id = List.range e.blockCount) ∧
    (o.html = p.html → o = p) := by
  intro o p
  have hnumbered : (ofExpr settings header e).root.Numbered 0 := numbered_ofExpr settings header e
  have hroot : o.root = (ofExpr settings header e).root := root_after hnumbered folds
  refine ⟨⟨?_, tagsOf_html o, ?_, map_id_calls settings header e hroot⟩, fun hhtml => ?_⟩
  · have hnested := Markup.nested_parts [] [] o.markup
    rw [List.append_nil] at hnested
    rw [partsOf_html, hnested]
    rfl
  · rw [tagsOf_html, o.filter_opensCall_tags]
  · have ⟨hheader, hmarked⟩ := header_and_marked_of_html hhtml
    apply eq_of_marked _ hheader hmarked
    rw [hroot]
    exact hnumbered

end Outline

end FormulaTree
