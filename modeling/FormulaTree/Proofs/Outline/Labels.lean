import FormulaTree.Proofs.Outline.Lines
import FormulaTree.Proofs.Outline.MarkedTree
import FormulaTree.Proofs.Outline.Printer

/-!
# Where the settings show

The language, the label mode and the dictionary choose the labels of rows and nothing else. In the
plain text a label stands in a field of fixed width: a `Stencil` tells which characters of the text
stand in such fields, and what the others are.
-/

namespace FormulaTree

/-! ## Labels taken away -/

mutual

/-- The block with no label on its rows. -/
def Block.unlabelled : Block → Block
  | .line text => .line text
  | .paren inner => .paren inner.unlabelled
  | .binary left o right => .binary left.unlabelled o right.unlabelled
  | .call id function preview rows => .call id function preview rows.unlabelled

def Rows.unlabelled : Rows → Rows
  | .nil => .nil
  | .cons _ value rest => .cons "" value.unlabelled rest.unlabelled

end

mutual

/-- The labels of the rows in a block, in the order of the lines they stand on. -/
def Block.labels : Block → List String
  | .line _ => []
  | .paren inner => inner.labels
  | .binary left _ right => left.labels ++ right.labels
  | .call _ _ _ rows => rows.labels

def Rows.labels : Rows → List String
  | .nil => []
  | .cons label value rest => label :: value.labels ++ rest.labels

end

mutual

theorem Block.callCount_unlabelled : (b : Block) → b.unlabelled.callCount = b.callCount
  | .line _ => rfl
  | .paren inner => inner.callCount_unlabelled
  | .binary left _ right => by
    rw [Block.unlabelled, Block.callCount, Block.callCount, left.callCount_unlabelled,
      right.callCount_unlabelled]
  | .call _ _ _ rows => by
    rw [Block.unlabelled, Block.callCount, Block.callCount, rows.callCount_unlabelled]

theorem Rows.callCount_unlabelled : (rows : Rows) → rows.unlabelled.callCount = rows.callCount
  | .nil => rfl
  | .cons _ value rest => by
    rw [Rows.unlabelled, Rows.callCount, Rows.callCount, value.callCount_unlabelled,
      rest.callCount_unlabelled]

end

mutual

/-- How arguments are labelled makes no other difference to a block. -/
theorem Block.unlabelled_ofExpr (label label' : String → Nat → String) (first : Nat) :
    (e : Expr) → (Block.ofExpr label first e).unlabelled = (Block.ofExpr label' first e).unlabelled
  | .number _ | .string _ | .name _ | .unary _ _ => rfl
  | .binary left o right => by
    rw [Block.ofExpr, Block.ofExpr, Block.unlabelled, Block.unlabelled,
      Block.unlabelled_ofExpr label label' first left, Block.unlabelled_ofExpr label label' _ right]
  | .paren inner => by
    rw [Block.ofExpr, Block.ofExpr, Block.unlabelled, Block.unlabelled,
      Block.unlabelled_ofExpr label label' first inner]
  | .call f args => by
    rw [Block.ofExpr, Block.ofExpr, Block.unlabelled, Block.unlabelled,
      Rows.unlabelled_ofArgs label label' _ 0 _ args]

theorem Rows.unlabelled_ofArgs (label label' : String → Nat → String) (function : String)
    (index first : Nat) : (es : List Expr) →
      (Rows.ofArgs label function index first es).unlabelled =
        (Rows.ofArgs label' function index first es).unlabelled
  | [] => rfl
  | e :: es => by
    rw [Rows.ofArgs, Rows.ofArgs, Rows.unlabelled, Rows.unlabelled,
      Block.unlabelled_ofExpr label label' first e,
      Rows.unlabelled_ofArgs label label' function _ _ es]

end

namespace Outline

def unlabelled (o : Outline) : Outline where
  header := o.header
  root := o.root.unlabelled
  marks := o.marks
  size_marks := by rw [o.size_marks, Block.callCount_unlabelled]

variable {o o' : Outline}

theorem rootIsCall_unlabelled (o : Outline) : o.unlabelled.rootIsCall = o.rootIsCall := by
  obtain ⟨header, root, marks, hsize⟩ := o
  cases root <;> rfl

theorem headerVisible_unlabelled (o : Outline) : o.unlabelled.headerVisible = o.headerVisible := by
  obtain ⟨header, root, marks, hsize⟩ := o
  cases root <;> rfl

/-- Folding answers alike whatever the labels, and leaves the same behind. -/
theorem unlabelled_after (h : o.root.Numbered 0) (h' : o'.root.Numbered 0)
    (heq : o.unlabelled = o'.unlabelled) (folds : List Fold) :
    (Fold.run fold o folds).1 = (Fold.run fold o' folds).1 ∧
      (o.after folds).unlabelled = (o'.after folds).unlabelled := by
  have hcall : o.rootIsCall = o'.rootIsCall := by
    rw [← rootIsCall_unlabelled, heq, rootIsCall_unlabelled]
  have hbits : o.bits = o'.bits := congrArg (fun p => p.bits) heq
  -- Folding is told by the bits, and these have nothing to do with labels.
  have hrun := (run_fold h folds).2
  rw [hcall, hbits, (run_fold h' folds).2] at hrun
  obtain ⟨hanswers, hafter⟩ := Prod.mk.inj hrun
  have hheader : o.header = o'.header := congrArg (fun p => p.header) heq
  have hroot : o.root.unlabelled = o'.root.unlabelled := congrArg (fun p => p.root) heq
  refine ⟨hanswers.symm, eq_of_bits_eq ?_ ?_ hafter.symm⟩
  · show (o.after folds).header = (o'.after folds).header
    rw [header_after h, header_after h', hheader]
  · show (o.after folds).root.unlabelled = (o'.after folds).root.unlabelled
    rw [root_after h, root_after h', hroot]

end Outline

/-! ## Stencils -/

/-- What is known of a text before its labels are: a character, or nothing in a place that belongs
to a label. -/
abbrev Stencil : Type :=
  List (Option Char)

namespace Stencil

def plain (s : String) : Stencil :=
  s.toList.map some

/-- The field that a label is padded to. -/
def labelField : Stencil :=
  List.replicate Outline.labelWidth none

/-- Whether a text has every character that the stencil has, in its place, and no more places. -/
def Fits (m : Stencil) (s : String) : Prop :=
  List.Forall₂ (fun cell c => ∀ d ∈ cell, d = c) m s.toList

variable {m n : Stencil} {s t : String}

theorem fits_plain (s : String) : Fits (plain s) s := by
  rw [Fits, plain, List.forall₂_map_left_iff, List.forall₂_same]
  intro c _ d hd
  exact (Option.mem_some.mp hd).symm

theorem Fits.append (hm : Fits m s) (hn : Fits n t) : Fits (m ++ n) (s ++ t) := by
  rw [Fits, String.toList_append]
  exact List.rel_append hm hn

theorem Fits.length_eq (h : Fits m s) : s.length = m.length := by
  rw [← String.length_toList]
  exact (List.Forall₂.length_eq h).symm

theorem fits_labelField {label : String} (h : label.length ≤ Outline.labelWidth) :
    Fits labelField (Text.padRight Outline.labelWidth label) := by
  rw [Fits, labelField, List.forall₂_iff_get]
  constructor
  · rw [List.length_replicate, String.length_toList, Text.length_padRight]
    omega
  · intro i hi _ d hd
    simp at hd

theorem Fits.intercalate (sep : String) : {ms : List Stencil} → {ss : List String} →
    List.Forall₂ Fits ms ss → Fits (List.intercalate (plain sep) ms) (sep.intercalate ss)
  | [], [], _ => fits_plain ""
  | [m], [s], .cons h .nil => by
    rw [List.intercalate_singleton, String.intercalate_singleton]
    exact h
  | m :: m' :: ms, s :: s' :: ss, .cons h hs => by
    rw [List.intercalate_cons_cons, String.intercalate_cons_cons]
    exact (h.append (fits_plain sep)).append (Fits.intercalate sep hs)

/-- Two texts that fit one stencil differ in the places of labels only. -/
theorem Fits.eq_none_of_ne (hs : Fits m s) (ht : Fits m t) {i : Nat}
    (hne : s.toList[i]? ≠ t.toList[i]?) : m[i]? = some none := by
  have ⟨hslength, hschars⟩ := List.forall₂_iff_get.mp hs
  have ⟨htlength, htchars⟩ := List.forall₂_iff_get.mp ht
  by_cases hi : i < m.length
  · rw [List.getElem?_eq_getElem hi]
    cases hcell : m[i] with
    | none => rfl
    | some d =>
      -- Both texts have the character that the stencil has.
      have hd : d ∈ m.get ⟨i, hi⟩ := hcell
      have hsd := hschars i hi (hslength ▸ hi) d hd
      have htd := htchars i hi (htlength ▸ hi) d hd
      rw [List.getElem?_eq_getElem (hslength ▸ hi), List.getElem?_eq_getElem (htlength ▸ hi)] at hne
      exact absurd (congrArg some (hsd.symm.trans htd)) hne
  -- Behind the stencil there is nothing left of either.
  · rw [List.getElem?_eq_none (by omega), List.getElem?_eq_none (by omega)] at hne
    exact absurd rfl hne

/-- Only the places of a text itself can be blank; those of labels are kept. -/
def trimStart (m : Stencil) : Stencil :=
  m.dropWhile (·.any Text.isBlank)

theorem trimStart_plain (s : String) : trimStart (plain s) = plain (Text.trimStart s) := by
  rw [trimStart, plain, List.dropWhile_map, plain, Text.trimStart, String.toList_ofList]
  rfl

end Stencil

namespace Outline

def rowStencils (depth : Nat) : List Stencil → List Stencil
  | [] => []
  -- The label stands on the first line; the field is empty on the others, whatever the label is.
  | first :: more =>
    (.plain (Text.copies (depth + 1) "| ") ++ .labelField ++ .plain gutter ++ first.trimStart) ::
      more.map (.plain (rowStart depth "") ++ ·)

end Outline

mutual

/-- The stencils of the lines of a block. -/
def Block.stencils (isOpen : Nat → Bool) (depth : Nat) : Block → List Stencil
  | .line text => [.plain (Outline.indented depth text)]
  | .paren inner =>
    .plain (Outline.indented depth "(") :: inner.stencils isOpen (depth + 1)
      ++ [.plain (Outline.indented depth ")")]
  | .binary left o right =>
    .plain (Outline.indented depth "(") :: left.stencils isOpen (depth + 1)
      ++ .plain (Outline.indented (depth + 1) o.symbol) :: right.stencils isOpen (depth + 1)
      ++ [.plain (Outline.indented depth ")")]
  | .call id function preview rows =>
    if isOpen id then
      .plain (Outline.indented depth (function ++ "(")) :: rows.stencils isOpen depth
        ++ [.plain (Outline.indented depth ")")]
    else
      [.plain (Outline.indented depth (function ++ preview))]

def Rows.stencils (isOpen : Nat → Bool) (depth : Nat) : Rows → List Stencil
  | .nil => []
  | .cons _ value rest =>
    Outline.rowStencils depth (value.stencils isOpen (depth + 1)) ++ rest.stencils isOpen depth

end

mutual

theorem Block.stencils_unlabelled (isOpen : Nat → Bool) (depth : Nat) :
    (b : Block) → b.unlabelled.stencils isOpen depth = b.stencils isOpen depth
  | .line _ => rfl
  | .paren inner => by
    rw [Block.unlabelled, Block.stencils, Block.stencils, inner.stencils_unlabelled]
  | .binary left o right => by
    rw [Block.unlabelled, Block.stencils, Block.stencils, left.stencils_unlabelled,
      right.stencils_unlabelled]
  | .call id f preview rows => by
    rw [Block.unlabelled, Block.stencils, Block.stencils, rows.stencils_unlabelled]

theorem Rows.stencils_unlabelled (isOpen : Nat → Bool) (depth : Nat) :
    (rows : Rows) → rows.unlabelled.stencils isOpen depth = rows.stencils isOpen depth
  | .nil => rfl
  | .cons _ value rest => by
    rw [Rows.unlabelled, Rows.stencils, Rows.stencils, value.stencils_unlabelled,
      rest.stencils_unlabelled]

end

/-- The first line of a block has no label on it. -/
theorem Block.stencils_eq (isOpen : Nat → Bool) (depth : Nat) (b : Block) :
    b.stencils isOpen depth =
      .plain (Outline.indented depth (b.headline isOpen)) :: (b.stencils isOpen depth).tail := by
  cases b with
  | line _ | paren _ | binary _ _ _ => rfl
  | call id f preview rows =>
    rw [Block.stencils, Block.headline]
    cases isOpen id <;> rfl

open Stencil

theorem Outline.fits_rowLines {label : String} (h : label.length ≤ labelWidth) (depth : Nat)
    (isOpen : Nat → Bool) {b : Block}
    (hb : List.Forall₂ Fits (b.stencils isOpen (depth + 1)) (b.lines isOpen (depth + 1))) :
    List.Forall₂ Fits (rowStencils depth (b.stencils isOpen (depth + 1)))
      (rowLines depth label (b.lines isOpen (depth + 1))) := by
  -- The first line is all characters, so the same blanks are taken away in front.
  rw [b.stencils_eq, b.lines_eq] at hb ⊢
  rw [List.forall₂_cons] at hb
  rw [rowStencils, rowLines, trimStart_plain, List.forall₂_cons, List.forall₂_map_left_iff,
    List.forall₂_map_right_iff]
  constructor
  · have hstart := ((fits_plain (Text.copies (depth + 1) "| ")).append (fits_labelField h)).append
      (fits_plain gutter)
    exact hstart.append (fits_plain _)
  · exact hb.2.imp fun m s hs => (fits_plain (rowStart depth "")).append hs

mutual

/-- The lines of a block fit their stencils, as long as every label fits its field. -/
theorem Block.fits_lines (isOpen : Nat → Bool) (depth : Nat) : (b : Block) →
    (∀ l ∈ b.labels, l.length ≤ Outline.labelWidth) →
      List.Forall₂ Fits (b.stencils isOpen depth) (b.lines isOpen depth)
  | .line text, _ => .cons (fits_plain _) .nil
  | .paren inner, h => by
    rw [Block.stencils, Block.lines]
    exact List.rel_append (.cons (fits_plain _) (inner.fits_lines isOpen _ h))
      (.cons (fits_plain _) .nil)
  | .binary left o right, h => by
    rw [Block.labels, List.forall_mem_append] at h
    rw [Block.stencils, Block.lines]
    have hleft := left.fits_lines isOpen (depth + 1) h.1
    have hright := right.fits_lines isOpen (depth + 1) h.2
    refine List.rel_append (List.rel_append ?_ ?_) (.cons (fits_plain _) .nil)
    · exact .cons (fits_plain _) hleft
    · exact .cons (fits_plain _) hright
  | .call id f preview rows, h => by
    rw [Block.stencils, Block.lines]
    split
    · exact List.rel_append (.cons (fits_plain _) (rows.fits_lines isOpen depth h))
        (.cons (fits_plain _) .nil)
    · exact .cons (fits_plain _) .nil

theorem Rows.fits_lines (isOpen : Nat → Bool) (depth : Nat) : (rows : Rows) →
    (∀ l ∈ rows.labels, l.length ≤ Outline.labelWidth) →
      List.Forall₂ Fits (rows.stencils isOpen depth) (rows.lines isOpen depth)
  | .nil, _ => .nil
  | .cons label value rest, h => by
    rw [Rows.labels, List.cons_append, List.forall_mem_cons, List.forall_mem_append] at h
    rw [Rows.stencils, Rows.lines]
    have hvalue := value.fits_lines isOpen (depth + 1) h.2.1
    exact List.rel_append (Outline.fits_rowLines h.1 depth isOpen hvalue)
      (rest.fits_lines isOpen depth h.2.2)

end

namespace Outline

/-- The stencil of the text of an outline. -/
def stencil (o : Outline) : Stencil :=
  let header : List Stencil := if o.headerVisible then [.plain o.header] else []
  List.intercalate (Stencil.plain "\n") (header ++ o.root.stencils o.isOpen 0)

theorem stencil_unlabelled (o : Outline) : o.unlabelled.stencil = o.stencil := by
  rw [stencil, headerVisible_unlabelled]
  show List.intercalate _ (_ ++ o.root.unlabelled.stencils o.isOpen 0) = _
  rw [Block.stencils_unlabelled]
  rfl

theorem fits_text {o : Outline} (h : ∀ l ∈ o.root.labels, l.length ≤ labelWidth) :
    o.stencil.Fits o.text := by
  have hroot := o.root.fits_lines o.isOpen 0 h
  rw [text_eq_intercalate]
  refine Fits.intercalate "\n" (List.rel_append ?_ hroot)
  split
  · exact .cons (fits_plain _) .nil
  · exact .nil

/-- The settings choose the labels of an outline and nothing else. However it is folded, its text
differs in the label fields only, as long as every label fits its field. -/
theorem labels_only (settings settings' : Settings) (source : String) :
    (∃ e, ofSource settings source = .error e ∧ ofSource settings' source = .error e) ∨
    ∃ o o', ofSource settings source = .ok o ∧ ofSource settings' source = .ok o' ∧
      o.unlabelled = o'.unlabelled ∧ (∀ b ∈ o.bits, b = true) ∧
      ∀ folds : List Fold,
        let p := o.after folds
        let p' := o'.after folds
        (Fold.run fold o folds).1 = (Fold.run fold o' folds).1 ∧
        p.unlabelled = p'.unlabelled ∧
        ((∀ l ∈ o.root.labels ++ o'.root.labels, l.length ≤ labelWidth) →
          p.stencil.Fits p.text ∧ p.stencil.Fits p'.text ∧
          p.text.length = p'.text.length ∧
          ∀ i : Nat, p.text.toList[i]? ≠ p'.text.toList[i]? → p.stencil[i]? = some none) := by
  cases hparse : Formula.parse source with
  | error e =>
    left
    exact ⟨e, ofSource_of_parse_error hparse settings, ofSource_of_parse_error hparse settings'⟩
  | ok e =>
    right
    have hofSource := ofSource_of_parse_ok hparse
    let o := ofExpr settings (Text.trim source) e
    let o' := ofExpr settings' (Text.trim source) e
    have hbits : o.bits = List.replicate e.blockCount true := bits_ofExpr settings _ e
    have hbits' : o'.bits = List.replicate e.blockCount true := bits_ofExpr settings' _ e
    have hnumbered : o.root.Numbered 0 := numbered_ofExpr settings _ e
    have hnumbered' : o'.root.Numbered 0 := numbered_ofExpr settings' _ e
    have hunlabelled : o.unlabelled = o'.unlabelled :=
      eq_of_bits_eq rfl (Block.unlabelled_ofExpr _ _ 0 e) (hbits.trans hbits'.symm)
    refine ⟨o, o', hofSource settings, hofSource settings', hunlabelled, ?_, fun folds => ?_⟩
    · rw [hbits]
      exact fun b hb => List.eq_of_mem_replicate hb
    · obtain ⟨hanswers, hafter⟩ := unlabelled_after hnumbered hnumbered' hunlabelled folds
      refine ⟨hanswers, hafter, fun hlabels => ?_⟩
      rw [List.forall_mem_append] at hlabels
      have hfits : (o.after folds).stencil.Fits (o.after folds).text := by
        apply fits_text
        rw [root_after hnumbered]
        exact hlabels.1
      -- The stencil knows no label, so it is the other text's as well.
      have hfits' : (o.after folds).stencil.Fits (o'.after folds).text := by
        rw [← stencil_unlabelled, hafter, stencil_unlabelled]
        apply fits_text
        rw [root_after hnumbered']
        exact hlabels.2
      refine ⟨hfits, hfits', hfits.length_eq.trans hfits'.length_eq.symm, fun i hne => ?_⟩
      exact hfits.eq_none_of_ne hfits' hne

theorem labels_only_of_conditional :
    let source := "=IF(A1,SUM(1),2)"
    let text := "IF(\n| logical_test    A1\n| value_if_true   SUM(1)\n| value_if_false  2\n)"
    let text' := "IF(\n| 条件式             A1\n| 真の場合            SUM(1)\n| 偽の場合            2\n)"
    ∃ o o', ofSource { locale := .en } source = .ok o ∧ ofSource {} source = .ok o' ∧
      (o.after [.toggle 1]).text = text ∧ (o'.after [.toggle 1]).text = text' ∧
      text.length = text'.length := by
  intro source text text'
  let e : Expr := .call "IF" [.name "A1", .call "SUM" [.number "1"], .number "2"]
  let o := ofExpr { locale := .en } (Text.trim source) e
  let o' := ofExpr {} (Text.trim source) e
  have hparse : Formula.parse source = .ok e := by cbv
  have ho : ofSource { locale := .en } source = .ok o := ofSource_of_parse_ok hparse _
  have ho' : ofSource {} source = .ok o' := ofSource_of_parse_ok hparse _
  have htext : (o.after [.toggle 1]).text = text := by cbv
  have htext' : (o'.after [.toggle 1]).text = text' := by cbv
  have hlabels : o.root.labels ++ o'.root.labels = ["logical_test", "value_if_true", "arg1",
      "value_if_false", "条件式", "真の場合", "引数1", "偽の場合"] := by cbv
  refine ⟨o, o', ho, ho', htext, htext', ?_⟩
  rcases labels_only { locale := .en } {} source with
    ⟨e, herror, -⟩ | ⟨p, p', hp, hp', -, -, hfolds⟩
  · exact absurd (ho.symm.trans herror) (by simp)
  · obtain rfl := Except.ok.inj (ho.symm.trans hp)
    obtain rfl := Except.ok.inj (ho'.symm.trans hp')
    have hfields := (hfolds [.toggle 1]).2.2
    rw [hlabels, htext, htext'] at hfields
    exact (hfields (by decide)).2.2.1

end Outline

end FormulaTree
