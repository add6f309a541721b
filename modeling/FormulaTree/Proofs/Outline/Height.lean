import FormulaTree.Proofs.Outline.Labels
import FormulaTree.Proofs.RoundTrip

/-!
# The lines of the text

The layout gives each block a number of lines, its height. Only a line feed inside a shown text, and
such a text can only be a string literal, breaks one of them in two: without any, each line of the
text is one of the layout, and the rows of an open call stand behind bars.
-/

namespace FormulaTree

/-! ## Lines between line feeds -/

namespace Text

/-- What stands between the line feeds of a text. -/
def linesOf (s : String) : List (List Char) :=
  s.toList.splitOn '\n'

/-- The line feeds in some texts. -/
def breaks (ls : List String) : Nat :=
  (ls.map fun l => l.toList.count '\n').sum

theorem length_linesOf (s : String) : (linesOf s).length = s.toList.count '\n' + 1 := by
  unfold linesOf
  induction s.toList with
  | nil => rfl
  | cons c cs ih =>
    rw [List.splitOn_cons_eq_if_modifyHead]
    by_cases hc : c = '\n'
    · simp [hc, ih]
    · simp [hc, ih]

theorem linesOf_of_no_break {s : String} (h : s.toList.count '\n' = 0) :
    linesOf s = [s.toList] :=
  List.splitOn_eq_singleton (List.count_eq_zero.mp h)

theorem linesOf_intercalate (l : String) (ls : List String) :
    linesOf ("\n".intercalate (l :: ls)) = (l :: ls).flatMap linesOf := by
  induction ls generalizing l with
  | nil => simp
  | cons m ls ih =>
    have hsplit : ("\n".intercalate (l :: m :: ls)).toList =
        l.toList ++ '\n' :: ("\n".intercalate (m :: ls)).toList := by
      rw [String.intercalate_cons_cons, String.toList_append, String.toList_append,
        List.append_assoc]
      rfl
    rw [linesOf, hsplit, List.splitOn_append_cons_self, List.flatMap_cons, ← ih m]
    rfl

@[simp] theorem breaks_nil : breaks [] = 0 := rfl

@[simp] theorem breaks_cons (l : String) (ls : List String) :
    breaks (l :: ls) = l.toList.count '\n' + breaks ls := by
  simp [breaks]

@[simp] theorem breaks_append (ls ms : List String) : breaks (ls ++ ms) = breaks ls + breaks ms := by
  simp [breaks]

theorem length_flatMap_linesOf (ls : List String) :
    (ls.flatMap linesOf).length = ls.length + breaks ls := by
  induction ls with
  | nil => rfl
  | cons l ls ih =>
    rw [List.flatMap_cons, List.length_append, ih, length_linesOf, breaks_cons, List.length_cons]
    omega

theorem flatMap_linesOf {ls : List String} (h : breaks ls = 0) :
    ls.flatMap linesOf = ls.map String.toList := by
  induction ls with
  | nil => rfl
  | cons l ls ih =>
    rw [breaks_cons, Nat.add_eq_zero_iff] at h
    rw [List.flatMap_cons, linesOf_of_no_break h.1, ih h.2, List.singleton_append, List.map_cons]

theorem count_newline_copies {s : String} (h : s.toList.count '\n' = 0) (n : Nat) :
    (copies n s).toList.count '\n' = 0 := by
  rw [toList_copies, List.count_eq_zero] at *
  intro hmem
  obtain ⟨cs, hcs, hc⟩ := List.mem_flatten.mp hmem
  rw [List.eq_of_mem_replicate hcs] at hc
  exact h hc

end Text

open Text (linesOf breaks)

namespace Outline

theorem count_newline_indented (depth : Nat) (s : String) :
    (indented depth s).toList.count '\n' = s.toList.count '\n' := by
  rw [indented, String.toList_append, List.count_append, Text.count_newline_copies rfl,
    Nat.zero_add]

/-- Of the front of a row only the label can have line feeds. -/
theorem count_newline_rowStart (depth : Nat) (label : String) :
    (rowStart depth label).toList.count '\n' = label.toList.count '\n' := by
  have hgutter : gutter.toList.count '\n' = 0 := rfl
  simp only [rowStart, Text.padRight, String.toList_append, List.count_append]
  rw [Text.count_newline_copies rfl, Text.count_newline_copies rfl, hgutter]
  omega

theorem breaks_map_rowStart (depth : Nat) (ls : List String) :
    breaks (ls.map (rowStart depth "" ++ ·)) = breaks ls := by
  induction ls with
  | nil => rfl
  | cons l ls ih =>
    rw [List.map_cons, Text.breaks_cons, ih, Text.breaks_cons, String.toList_append,
      List.count_append, count_newline_rowStart]
    simp

end Outline

/-! ## The height of a block -/

mutual

/-- The number of lines that the layout gives a block. -/
def Block.height (isOpen : Nat → Bool) : Block → Nat
  | .line _ => 1
  | .paren inner => inner.height isOpen + 2
  | .binary left _ right => left.height isOpen + right.height isOpen + 3
  | .call id _ _ rows => if isOpen id then rows.height isOpen + 2 else 1

def Rows.height (isOpen : Nat → Bool) : Rows → Nat
  | .nil => 0
  | .cons _ value rest => value.height isOpen + rest.height isOpen

end

mutual

/-- The line feeds inside the texts that are shown of a block. -/
def Block.breaks (isOpen : Nat → Bool) : Block → Nat
  | .line text => text.toList.count '\n'
  | .paren inner => inner.breaks isOpen
  | .binary left _ right => left.breaks isOpen + right.breaks isOpen
  | .call id function preview rows =>
    function.toList.count '\n' +
      if isOpen id then rows.breaks isOpen else preview.toList.count '\n'

def Rows.breaks (isOpen : Nat → Bool) : Rows → Nat
  | .nil => 0
  | .cons _ value rest => value.breaks isOpen + rest.breaks isOpen

end

mutual

theorem Block.length_lines (isOpen : Nat → Bool) (depth : Nat) :
    (b : Block) → (b.lines isOpen depth).length = b.height isOpen
  | .line _ => rfl
  | .paren inner => by
    have hinner := inner.length_lines isOpen (depth + 1)
    simp only [Block.lines, Block.height, List.length_append, List.length_cons, List.length_nil]
    omega
  | .binary left o right => by
    have hleft := left.length_lines isOpen (depth + 1)
    have hright := right.length_lines isOpen (depth + 1)
    simp only [Block.lines, Block.height, List.length_append, List.length_cons, List.length_nil]
    omega
  | .call id f preview rows => by
    have hrows := rows.length_lines isOpen depth
    unfold Block.lines Block.height
    split
    · simp only [List.length_append, List.length_cons, List.length_nil]
      omega
    · rfl

theorem Rows.length_lines (isOpen : Nat → Bool) (depth : Nat) :
    (rows : Rows) → (rows.lines isOpen depth).length = rows.height isOpen
  | .nil => rfl
  | .cons label value rest => by
    have hvalue := value.length_lines isOpen (depth + 1)
    have hrest := rest.length_lines isOpen depth
    rw [value.lines_eq, List.length_cons] at hvalue
    rw [Rows.lines, Rows.height, value.lines_eq, Outline.rowLines, List.length_append,
      List.length_cons, List.length_map]
    omega

end

mutual

/-- The layout adds no line feed inside a line. -/
theorem Block.breaks_lines (isOpen : Nat → Bool) (depth : Nat) : (b : Block) → b.Solid →
    (∀ l ∈ b.labels, '\n' ∉ l.toList) → breaks (b.lines isOpen depth) = b.breaks isOpen
  | .line text, _, _ => by
    rw [Block.lines, Text.breaks_cons, Outline.count_newline_indented]
    rfl
  | .paren inner, hsolid, hlabels => by
    have hinner := inner.breaks_lines isOpen (depth + 1) hsolid hlabels
    have hmarks : "(".toList.count '\n' = 0 ∧ ")".toList.count '\n' = 0 := by decide
    simp only [Block.lines, Block.breaks, Text.breaks_append, Text.breaks_cons, Text.breaks_nil,
      Outline.count_newline_indented]
    omega
  | .binary left o right, hsolid, hlabels => by
    rw [Block.labels, List.forall_mem_append] at hlabels
    have hleft := left.breaks_lines isOpen (depth + 1) hsolid.1 hlabels.1
    have hright := right.breaks_lines isOpen (depth + 1) hsolid.2 hlabels.2
    have hmarks : "(".toList.count '\n' = 0 ∧ ")".toList.count '\n' = 0 := by decide
    have ho : o.symbol.toList.count '\n' = 0 := by cases o <;> decide
    simp only [Block.lines, Block.breaks, Text.breaks_append, Text.breaks_cons, Text.breaks_nil,
      Outline.count_newline_indented]
    omega
  | .call id f preview rows, hsolid, hlabels => by
    have hrows := rows.breaks_lines isOpen depth hsolid.2 hlabels
    have hmarks : "(".toList.count '\n' = 0 ∧ ")".toList.count '\n' = 0 := by decide
    unfold Block.lines Block.breaks
    split
    · simp only [Text.breaks_append, Text.breaks_cons, Text.breaks_nil,
        Outline.count_newline_indented, String.toList_append, List.count_append]
      omega
    · simp only [Text.breaks_cons, Text.breaks_nil, Outline.count_newline_indented,
        String.toList_append, List.count_append]
      omega

theorem Rows.breaks_lines (isOpen : Nat → Bool) (depth : Nat) : (rows : Rows) → rows.Solid →
    (∀ l ∈ rows.labels, '\n' ∉ l.toList) → breaks (rows.lines isOpen depth) = rows.breaks isOpen
  | .nil, _, _ => rfl
  | .cons label value rest, hsolid, hlabels => by
    rw [Rows.labels, List.forall_mem_append, List.forall_mem_cons] at hlabels
    obtain ⟨⟨hlabel, hvalues⟩, hrests⟩ := hlabels
    have hvalue := value.breaks_lines isOpen (depth + 1) hsolid.1 hvalues
    have hrest := rest.breaks_lines isOpen depth hsolid.2 hrests
    -- Trimming the first line of the value leaves its headline, which has all the line feeds.
    rw [value.lines_eq, Text.breaks_cons, Outline.count_newline_indented] at hvalue
    rw [Rows.lines, Rows.breaks, Text.breaks_append, Outline.rowLines_lines hsolid.1,
      Text.breaks_cons, Outline.breaks_map_rowStart, String.toList_append, List.count_append,
      Outline.count_newline_rowStart, List.count_eq_zero.mpr hlabel, hrest]
    omega

end

/-- The lines of the rows of a call stand behind bars. -/
theorem Rows.exists_rowStart (isOpen : Nat → Bool) (depth : Nat) : (rows : Rows) →
    ∀ l ∈ rows.lines isOpen depth, ∃ label s, l = Outline.rowStart depth label ++ s
  | .nil, _, hl => absurd hl List.not_mem_nil
  | .cons label value rest, l, hl => by
    rw [Rows.lines, value.lines_eq, Outline.rowLines, List.cons_append] at hl
    rcases List.mem_cons.mp hl with rfl | hl
    · exact ⟨label, _, rfl⟩
    · rcases List.mem_append.mp hl with hl | hl
      · obtain ⟨s, -, rfl⟩ := List.mem_map.mp hl
        exact ⟨"", s, rfl⟩
      · exact rest.exists_rowStart isOpen depth l hl

/-! ## Texts without line feeds -/

namespace Expr

/-- Whether no string literal of an expression has a line feed. -/
def LiteralsOnOneLine (e : Expr) : Prop :=
  ∀ contents, Token.string contents ∈ e.tokens → '\n' ∉ contents.toList

theorem newline_not_mem_intercalate {ss : List String} (h : ∀ s ∈ ss, '\n' ∉ s.toList) :
    '\n' ∉ (", ".intercalate ss).toList := by
  cases ss with
  | nil => simp
  | cons s ss =>
    rw [List.forall_mem_cons] at h
    rw [toList_intercalate_cons, List.mem_append, List.mem_flatMap]
    rintro (hs | ⟨t, ht, hmem⟩)
    · exact h.1 hs
    · rcases List.mem_append.mp hmem with hcomma | hmem
      · exact absurd hcomma (by decide)
      · exact h.2 t ht hmem

mutual

theorem newline_not_mem_oneLine : (e : Expr) → (∀ t ∈ e.tokens, t.Spelled) →
    e.LiteralsOnOneLine → '\n' ∉ e.oneLine.toList
  | number text, h, _ => fun hmem =>
    absurd (Token.forall_isNumberPart (h _ List.mem_cons_self) _ hmem) (by decide)
  | name text, h, _ => fun hmem =>
    absurd (Token.forall_isNamePart (h _ List.mem_cons_self) _ hmem) (by decide)
  | string contents, _, hliterals => by
    simpa [oneLine] using hliterals contents List.mem_cons_self
  | unary sign operand, h, hliterals => by
    rw [tokens, List.forall_mem_cons] at h
    have hoperand := newline_not_mem_oneLine operand h.2 fun contents hc =>
      hliterals contents (List.mem_cons_of_mem _ hc)
    cases sign <;> simpa [oneLine, Sign.symbol] using hoperand
  | binary left o right, h, hliterals => by
    rw [tokens, List.forall_mem_append, List.forall_mem_cons] at h
    have hleft := newline_not_mem_oneLine left h.1 fun contents hc =>
      hliterals contents (List.mem_append_left _ hc)
    have hright := newline_not_mem_oneLine right h.2.2 fun contents hc =>
      hliterals contents (List.mem_append_right _ (List.mem_cons_of_mem _ hc))
    have ho : '\n' ∉ o.symbol.toList := by cases o <;> decide
    simp [oneLine, hleft, hright, ho]
  | paren inner, h, hliterals => by
    rw [tokens, List.forall_mem_cons, List.forall_mem_append] at h
    have hinner := newline_not_mem_oneLine inner h.2.1 fun contents hc =>
      hliterals contents (List.mem_cons_of_mem _ (List.mem_append_left _ hc))
    simpa [oneLine] using hinner
  | call f args, h, hliterals => by
    rw [tokens, List.forall_mem_cons, List.forall_mem_cons, List.forall_mem_append] at h
    have hf : '\n' ∉ f.toList := fun hmem =>
      absurd (Token.forall_isNamePart h.1 _ hmem) (by decide)
    have hargs := newline_not_mem_oneLines args (fun a ha t ht => h.2.2.1 t (mem_argTokens ht ha))
      fun a ha contents hc => hliterals contents
        (List.mem_cons_of_mem _ (List.mem_cons_of_mem _
          (List.mem_append_left _ (mem_argTokens hc ha))))
    simpa [oneLine, hf] using newline_not_mem_intercalate hargs

theorem newline_not_mem_oneLines : (es : List Expr) → (∀ e ∈ es, ∀ t ∈ e.tokens, t.Spelled) →
    (∀ e ∈ es, e.LiteralsOnOneLine) → ∀ s ∈ oneLines es, '\n' ∉ s.toList
  | [], _, _, _, hs => absurd hs List.not_mem_nil
  | e :: es, h, hliterals, s, hs => by
    rw [List.forall_mem_cons] at h hliterals
    rcases List.mem_cons.mp hs with rfl | hs
    · exact newline_not_mem_oneLine e h.1 hliterals.1
    · exact newline_not_mem_oneLines es h.2 hliterals.2 s hs

end

theorem count_newline_upperCase {f : String} (h : (Token.name f).Spelled) :
    (Text.upperCase f).toList.count '\n' = 0 :=
  List.count_eq_zero.mpr fun hmem =>
    absurd (Token.isNamePart_upperCase h _ hmem) (by decide)

mutual

/-- Without a line feed in a string literal nothing that is shown has one. -/
theorem breaks_ofExpr (isOpen : Nat → Bool) (label : String → Nat → String) (first : Nat) :
    (e : Expr) → (∀ t ∈ e.tokens, t.Spelled) → e.LiteralsOnOneLine →
      (Block.ofExpr label first e).breaks isOpen = 0
  | .number _, h, hliterals | .string _, h, hliterals | .name _, h, hliterals
  | .unary _ _, h, hliterals => List.count_eq_zero.mpr (newline_not_mem_oneLine _ h hliterals)
  | .binary left o right, h, hliterals => by
    rw [tokens, List.forall_mem_append, List.forall_mem_cons] at h
    have hleft := breaks_ofExpr isOpen label first left h.1 fun contents hc =>
      hliterals contents (List.mem_append_left _ hc)
    have hright := breaks_ofExpr isOpen label (first + left.blockCount) right h.2.2
      fun contents hc => hliterals contents (List.mem_append_right _ (List.mem_cons_of_mem _ hc))
    rw [Block.ofExpr, Block.breaks, hleft, hright]
  | .paren inner, h, hliterals => by
    rw [tokens, List.forall_mem_cons, List.forall_mem_append] at h
    exact breaks_ofExpr isOpen label first inner h.2.1 fun contents hc =>
      hliterals contents (List.mem_cons_of_mem _ (List.mem_append_left _ hc))
  | .call f args, h, hliterals => by
    have hline := newline_not_mem_oneLine (.call f args) h hliterals
    rw [oneLine_call, String.toList_append, List.mem_append, not_or] at hline
    rw [tokens, List.forall_mem_cons, List.forall_mem_cons, List.forall_mem_append] at h
    have hargs := breaks_ofArgs isOpen label (Text.upperCase f) 0 (first + 1) args
      (fun a ha t ht => h.2.2.1 t (mem_argTokens ht ha))
      fun a ha contents hc => hliterals contents
        (List.mem_cons_of_mem _ (List.mem_cons_of_mem _
          (List.mem_append_left _ (mem_argTokens hc ha))))
    rw [Block.ofExpr, Block.breaks, count_newline_upperCase h.1, hargs,
      List.count_eq_zero.mpr hline.2, ite_self]

theorem breaks_ofArgs (isOpen : Nat → Bool) (label : String → Nat → String) (function : String)
    (index first : Nat) : (es : List Expr) → (∀ e ∈ es, ∀ t ∈ e.tokens, t.Spelled) →
      (∀ e ∈ es, e.LiteralsOnOneLine) →
      (Rows.ofArgs label function index first es).breaks isOpen = 0
  | [], _, _ => rfl
  | e :: es, h, hliterals => by
    rw [List.forall_mem_cons] at h hliterals
    rw [Rows.ofArgs, Rows.breaks, breaks_ofExpr isOpen label first e h.1 hliterals.1,
      breaks_ofArgs isOpen label function _ _ es h.2 hliterals.2]

end

end Expr

/-! ## The lines of the text -/

namespace Outline

/-- The text of the blocks, without the header. -/
def body (o : Outline) : String :=
  "\n".intercalate (o.root.lines o.isOpen 0)

theorem text_eq (o : Outline) :
    o.text = (if o.headerVisible then o.header ++ "\n" else "") ++ o.body := by
  rw [text_eq_intercalate, lines, body, o.root.lines_eq]
  cases o.headerVisible with
  | true =>
    rw [if_pos rfl, if_pos rfl, List.singleton_append, String.intercalate_cons_cons]
  | false =>
    rw [if_neg Bool.false_ne_true, if_neg Bool.false_ne_true, List.nil_append, String.empty_append]

theorem linesOf_body (o : Outline) : linesOf o.body = (o.root.lines o.isOpen 0).flatMap linesOf := by
  rw [body, o.root.lines_eq, Text.linesOf_intercalate]

theorem length_linesOf_body {o : Outline} (hsolid : o.root.Solid)
    (hlabels : ∀ l ∈ o.root.labels, '\n' ∉ l.toList) :
    (linesOf o.body).length = o.root.height o.isOpen + o.root.breaks o.isOpen := by
  rw [linesOf_body, Text.length_flatMap_linesOf, Block.length_lines,
    Block.breaks_lines o.isOpen 0 o.root hsolid hlabels]

/-- Between the first and the last line of an open call at the root every line starts with a
bar. -/
theorem bar_of_mem_body {o : Outline} (hsolid : o.root.Solid)
    (hlabels : ∀ l ∈ o.root.labels, '\n' ∉ l.toList) (hbreaks : o.root.breaks o.isOpen = 0)
    {id : Nat} {f preview : String} {rows : Rows} (hroot : o.root = .call id f preview rows)
    (hopen : o.isOpen id = true) :
    ∀ l ∈ (linesOf o.body).tail.dropLast, "| ".toList <+: l := by
  have hlines : linesOf o.body = (o.root.lines o.isOpen 0).map String.toList := by
    rw [linesOf_body, Text.flatMap_linesOf]
    rw [Block.breaks_lines o.isOpen 0 o.root hsolid hlabels, hbreaks]
  intro l hl
  rw [hlines, hroot, Block.lines, if_pos hopen, List.cons_append, List.map_cons, List.tail_cons,
    List.map_append, List.map_singleton, List.dropLast_concat] at hl
  obtain ⟨line, hline, rfl⟩ := List.mem_map.mp hl
  obtain ⟨label, s, rfl⟩ := rows.exists_rowStart o.isOpen 0 line hline
  have hbar : Text.copies 1 "| " = "| " := by rfl
  simp only [rowStart, Nat.zero_add, hbar, String.toList_append, List.append_assoc]
  exact List.prefix_append _ _

/-- Whatever calls of a formula are open, the layout gives its blocks as many lines as they are
high. A line feed inside a shown text breaks one of them in two, and nothing else does. Where there
is none, every line of an open call at the root but the first and the last starts with a bar; and
there is none when no string literal of the formula has a line feed. -/
theorem lines_keep_place {settings : Settings} {source : String} {o : Outline}
    (h : ofSource settings source = .ok o) (hlabels : ∀ l ∈ o.root.labels, '\n' ∉ l.toList)
    (folds : List Fold) :
    let p := o.after folds
    ∃ e, Formula.parse source = .ok e ∧
      p.text = (if p.headerVisible then p.header ++ "\n" else "") ++ p.body ∧
      (linesOf p.body).length = p.root.height p.isOpen + p.root.breaks p.isOpen ∧
      (p.root.breaks p.isOpen = 0 → ∀ id f preview rows, p.root = .call id f preview rows →
        p.isOpen id = true → ∀ l ∈ (linesOf p.body).tail.dropLast, "| ".toList <+: l) ∧
      (e.LiteralsOnOneLine → p.root.breaks p.isOpen = 0) := by
  intro p
  obtain ⟨e, hparse, rfl⟩ := exists_ofSource h
  have hspelled := (Formula.canonical_of_parse hparse).spelled
  have hroot : p.root = Block.ofExpr settings.label 0 e :=
    root_after (numbered_ofExpr settings _ e) folds
  have hsolid : p.root.Solid := by
    rw [hroot]
    exact e.solid_ofExpr settings.label 0 hspelled
  have hfree : ∀ l ∈ p.root.labels, '\n' ∉ l.toList := by
    rw [hroot]
    exact hlabels
  refine ⟨e, hparse, p.text_eq, length_linesOf_body hsolid hfree, ?_, ?_⟩
  · intro hbreaks id f preview rows hcall hopen
    exact bar_of_mem_body hsolid hfree hbreaks hcall hopen
  · intro hliterals
    rw [hroot]
    exact e.breaks_ofExpr p.isOpen settings.label 0 hspelled hliterals

/-- Groups, a sum and a closed call in the rows of an open one. -/
theorem lines_keep_place_of_nested :
    let source := "=IF((A1+\"x\"),-SUM(1),F(G(2),3))"
    let e : Expr := .call "IF" [.paren (.binary (.name "A1") .add (.string "x")),
      .unary .minus (.call "SUM" [.number "1"]), .call "F" [.call "G" [.number "2"], .number "3"]]
    let o := ofExpr { locale := .en } (Text.trim source) e
    let p := o.after [.toggle 2]
    ofSource { locale := .en } source = .ok o ∧ (∀ l ∈ o.root.labels, '\n' ∉ l.toList) ∧
      ∃ e, Formula.parse source = .ok e ∧
        p.text = (if p.headerVisible then p.header ++ "\n" else "") ++ p.body ∧
        (linesOf p.body).length = p.root.height p.isOpen + p.root.breaks p.isOpen ∧
        (p.root.breaks p.isOpen = 0 → ∀ id f preview rows, p.root = .call id f preview rows →
          p.isOpen id = true → ∀ l ∈ (linesOf p.body).tail.dropLast, "| ".toList <+: l) ∧
        (e.LiteralsOnOneLine → p.root.breaks p.isOpen = 0) := by
  intro source e o p
  have hparse : Formula.parse source = .ok e := by cbv
  have hsource : ofSource { locale := .en } source = .ok o := ofSource_of_parse_ok hparse _
  have hlabels : o.root.labels = ["logical_test", "value_if_true", "value_if_false", "arg1",
      "arg1", "arg2"] := by cbv
  have hfree : ∀ l ∈ o.root.labels, '\n' ∉ l.toList := by
    rw [hlabels]
    decide
  exact ⟨hsource, hfree, lines_keep_place hsource hfree _⟩

/-- A literal over two lines takes a line that the layout does not know, and no bar stands in front
of it. -/
theorem line_without_bar :
    let source := "=SUM(\"a\nb\",1)"
    let e : Expr := .call "SUM" [.string "a\nb", .number "1"]
    let o := ofExpr { locale := .en } (Text.trim source) e
    ofSource { locale := .en } source = .ok o ∧ (∀ l ∈ o.root.labels, '\n' ∉ l.toList) ∧
      o.headerVisible = false ∧ o.text = o.body ∧
      o.root.height o.isOpen = 4 ∧ (linesOf o.text).length = 5 ∧
      ¬∀ l ∈ (linesOf o.text).tail.dropLast, "| ".toList <+: l := by
  intro source e o
  have hparse : Formula.parse source = .ok e := by cbv
  have hlabels : o.root.labels = ["arg1", "arg2"] := by cbv
  have hfree : ∀ l ∈ o.root.labels, '\n' ∉ l.toList := by
    rw [hlabels]
    decide
  have htext : o.text = "SUM(\n| arg1            \"a\nb\"\n| arg2            1\n)" := by cbv
  have hlines : linesOf o.text = ["SUM(".toList, "| arg1            \"a".toList, "b\"".toList,
      "| arg2            1".toList, ")".toList] := by
    rw [htext]
    decide
  have hvisible : o.headerVisible = false := rfl
  have hbody : o.text = o.body := by
    rw [text_eq, hvisible]
    exact String.empty_append
  refine ⟨ofSource_of_parse_ok hparse _, hfree, hvisible, hbody, rfl, ?_, fun hbars => ?_⟩
  · rw [hlines]
    rfl
  · rw [hlines] at hbars
    exact absurd (hbars "b\"".toList (by decide)) (by decide)

end Outline

end FormulaTree
