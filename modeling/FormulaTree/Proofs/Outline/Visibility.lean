import FormulaTree.Proofs.Outline.Height
import FormulaTree.Proofs.Outline.Recovery

/-!
# What the text shows of the marks

A call is visible when no call around it is closed. The text of an outline shows the marks of the
visible calls and of no other: read line by line it tells, for each call that is reached, whether
the call is open, and only the rows of an open call are reached.
-/

namespace FormulaTree

open Text (SingleLine AtLineEnd)

/-! ## The calls around a call -/

mutual

/-- The numbers of the calls in a block, each with those of the calls around it, from the outside
in. -/
def Block.paths : Block → List (Nat × List Nat)
  | .line _ => []
  | .paren inner => inner.paths
  | .binary left _ right => left.paths ++ right.paths
  | .call id _ _ rows => (id, []) :: rows.paths.map fun x => (x.1, id :: x.2)

def Rows.paths : Rows → List (Nat × List Nat)
  | .nil => []
  | .cons _ value rest => value.paths ++ rest.paths

end

/-- Whether the call `id` is among some calls, with none around it that is closed. -/
def VisibleIn (paths : List (Nat × List Nat)) (isOpen : Nat → Bool) (id : Nat) : Prop :=
  ∃ around, (id, around) ∈ paths ∧ ∀ outer ∈ around, isOpen outer = true

section

variable {paths paths' : List (Nat × List Nat)} {isOpen : Nat → Bool} {id outer : Nat}

theorem visibleIn_append :
    VisibleIn (paths ++ paths') isOpen id ↔
      VisibleIn paths isOpen id ∨ VisibleIn paths' isOpen id := by
  simp only [VisibleIn, List.mem_append, or_and_right, exists_or]

/-- A call is visible, and those in its rows are if it is open. -/
theorem visibleIn_call :
    VisibleIn ((outer, []) :: paths.map fun x => (x.1, outer :: x.2)) isOpen id ↔
      id = outer ∨ (isOpen outer = true ∧ VisibleIn paths isOpen id) := by
  constructor
  · rintro ⟨around, hmem, hopen⟩
    rcases List.mem_cons.mp hmem with heq | hmem
    · exact .inl (Prod.mk.inj heq).1
    · obtain ⟨⟨i, inner⟩, hinner, heq⟩ := List.mem_map.mp hmem
      obtain ⟨rfl, rfl⟩ := Prod.mk.inj heq
      rw [List.forall_mem_cons] at hopen
      exact .inr ⟨hopen.1, inner, hinner, hopen.2⟩
  · rintro (rfl | ⟨hopen, inner, hinner, hinners⟩)
    · exact ⟨[], List.mem_cons_self, by simp⟩
    · refine ⟨outer :: inner, List.mem_cons_of_mem _ (List.mem_map_of_mem hinner), ?_⟩
      exact List.forall_mem_cons.mpr ⟨hopen, hinners⟩

end

mutual

/-- Whether two markings agree on the calls of a block that can be seen. -/
def Block.SameShown (isOpen isOpen' : Nat → Bool) : Block → Prop
  | .line _ => True
  | .paren inner => inner.SameShown isOpen isOpen'
  | .binary left _ right => left.SameShown isOpen isOpen' ∧ right.SameShown isOpen isOpen'
  | .call id _ _ rows =>
    isOpen id = isOpen' id ∧ (isOpen id = true → rows.SameShown isOpen isOpen')

def Rows.SameShown (isOpen isOpen' : Nat → Bool) : Rows → Prop
  | .nil => True
  | .cons _ value rest => value.SameShown isOpen isOpen' ∧ rest.SameShown isOpen isOpen'

end

variable {isOpen isOpen' : Nat → Bool}

mutual

/-- To agree on what is visible by the one marking is enough. -/
theorem Block.sameShown_of_visible : (b : Block) →
    (∀ id, VisibleIn b.paths isOpen id → isOpen id = isOpen' id) → b.SameShown isOpen isOpen'
  | .line _, _ => trivial
  | .paren inner, h => inner.sameShown_of_visible h
  | .binary left _ right, h =>
    ⟨left.sameShown_of_visible fun id hid => h id (visibleIn_append.mpr (.inl hid)),
      right.sameShown_of_visible fun id hid => h id (visibleIn_append.mpr (.inr hid))⟩
  | .call id _ _ rows, h =>
    ⟨h id (visibleIn_call.mpr (.inl rfl)), fun hopen =>
      rows.sameShown_of_visible fun i hi => h i (visibleIn_call.mpr (.inr ⟨hopen, hi⟩))⟩

theorem Rows.sameShown_of_visible : (rs : Rows) →
    (∀ id, VisibleIn rs.paths isOpen id → isOpen id = isOpen' id) → rs.SameShown isOpen isOpen'
  | .nil, _ => trivial
  | .cons _ value rest, h =>
    ⟨value.sameShown_of_visible fun id hid => h id (visibleIn_append.mpr (.inl hid)),
      rest.sameShown_of_visible fun id hid => h id (visibleIn_append.mpr (.inr hid))⟩

end

/-- Whether the same of some calls are visible by two markings, and are open by both or by none. -/
def SameVisible (paths : List (Nat × List Nat)) (isOpen isOpen' : Nat → Bool) : Prop :=
  ∀ id, (VisibleIn paths isOpen id ↔ VisibleIn paths isOpen' id) ∧
    (VisibleIn paths isOpen id → isOpen id = isOpen' id)

theorem SameVisible.append {paths paths' : List (Nat × List Nat)}
    (h : SameVisible paths isOpen isOpen') (h' : SameVisible paths' isOpen isOpen') :
    SameVisible (paths ++ paths') isOpen isOpen' := by
  intro id
  rw [visibleIn_append, visibleIn_append, (h id).1, (h' id).1]
  refine ⟨Iff.rfl, ?_⟩
  rintro (hid | hid)
  · exact (h id).2 ((h id).1.mpr hid)
  · exact (h' id).2 ((h' id).1.mpr hid)

mutual

theorem Block.sameVisible : (b : Block) → b.SameShown isOpen isOpen' →
    SameVisible b.paths isOpen isOpen'
  | .line _, _ => by simp [SameVisible, VisibleIn, Block.paths]
  | .paren inner, h => inner.sameVisible h
  | .binary left _ right, h => (left.sameVisible h.1).append (right.sameVisible h.2)
  | .call outer _ _ rows, h => by
    obtain ⟨hmark, hrows⟩ := h
    intro id
    rw [Block.paths, visibleIn_call, visibleIn_call, ← hmark]
    by_cases hopen : isOpen outer = true
    · have hinner := rows.sameVisible (hrows hopen) id
      rw [hinner.1]
      refine ⟨Iff.rfl, ?_⟩
      rintro (rfl | ⟨-, hid⟩)
      · exact hmark
      · exact hinner.2 (hinner.1.mpr hid)
    · refine ⟨by simp [hopen], ?_⟩
      rintro (rfl | ⟨habsurd, -⟩)
      · exact hmark
      · exact absurd habsurd hopen

theorem Rows.sameVisible : (rs : Rows) → rs.SameShown isOpen isOpen' →
    SameVisible rs.paths isOpen isOpen'
  | .nil, _ => by simp [SameVisible, VisibleIn, Rows.paths]
  | .cons _ value rest, h => (value.sameVisible h.1).append (rest.sameVisible h.2)

end

theorem Block.sameShown_iff (b : Block) :
    b.SameShown isOpen isOpen' ↔ SameVisible b.paths isOpen isOpen' :=
  ⟨b.sameVisible, fun h => b.sameShown_of_visible fun id => (h id).2⟩

/-! ## What cannot be seen does not show -/

mutual

theorem Block.lines_congr (depth : Nat) : (b : Block) → b.SameShown isOpen isOpen' →
    b.lines isOpen depth = b.lines isOpen' depth
  | .line _, _ => rfl
  | .paren inner, h => by
    rw [Block.lines, Block.lines, inner.lines_congr (depth + 1) h]
  | .binary left _ right, h => by
    rw [Block.lines, Block.lines, left.lines_congr (depth + 1) h.1,
      right.lines_congr (depth + 1) h.2]
  | .call _ _ _ rows, h => by
    obtain ⟨hmark, hrows⟩ := h
    rw [Block.lines, Block.lines, ← hmark]
    split
    next hopen => rw [rows.lines_congr depth (hrows hopen)]
    next => rfl

theorem Rows.lines_congr (depth : Nat) : (rs : Rows) → rs.SameShown isOpen isOpen' →
    rs.lines isOpen depth = rs.lines isOpen' depth
  | .nil, _ => rfl
  | .cons _ value rest, h => by
    rw [Rows.lines, Rows.lines, value.lines_congr (depth + 1) h.1, rest.lines_congr depth h.2]

end

/-! ## What can be seen is told by the lines -/

mutual

/-- Whether every headline of a call in a block is one line, and longer for the closed call than for
the open one. -/
def Block.Legible : Block → Prop
  | .line _ => True
  | .paren inner => inner.Legible
  | .binary left _ right => left.Legible ∧ right.Legible
  | .call _ function preview rows =>
    SingleLine (function ++ "(").toList ∧ SingleLine (function ++ preview).toList ∧
      2 ≤ preview.length ∧ rows.Legible

def Rows.Legible : Rows → Prop
  | .nil => True
  | .cons _ value rest => value.Legible ∧ rest.Legible

end

namespace Expr

open Text (singleLine_of_all singleLine_intercalate)

theorem singleLine_argumentsLine {args : List Expr} (h : ∀ e ∈ args, ∀ t ∈ e.tokens, t.Spelled) :
    SingleLine (argumentsLine args).toList := by
  have hopen : SingleLine "(".toList := singleLine_of_all rfl
  have hinner := singleLine_intercalate (singleLine_oneLines args h)
  rw [argumentsLine, String.toList_append, String.toList_append]
  exact (hopen.append hinner).append singleLine_closing

mutual

theorem legible_ofExpr (label : String → Nat → String) (first : Nat) : (e : Expr) →
    (∀ t ∈ e.tokens, t.Spelled) → (Block.ofExpr label first e).Legible
  | .number _, _ | .string _, _ | .name _, _ | .unary _ _, _ => trivial
  | .binary left _ right, h => by
    rw [tokens, List.forall_mem_append, List.forall_mem_cons] at h
    exact ⟨legible_ofExpr label _ left h.1, legible_ofExpr label _ right h.2.2⟩
  | .paren inner, h => by
    rw [tokens, List.forall_mem_cons, List.forall_mem_append] at h
    exact legible_ofExpr label _ inner h.2.1
  | .call f args, h => by
    have hhead := singleLine_headline h
    rw [tokens, List.forall_mem_cons, List.forall_mem_cons, List.forall_mem_append] at h
    have hargs : ∀ a ∈ args, ∀ t ∈ a.tokens, t.Spelled :=
      fun a ha t ht => h.2.2.1 t (mem_argTokens ht ha)
    have hname : SingleLine (Text.upperCase f).toList :=
      singleLine_of_parts (Token.isNamePart_upperCase h.1) (by decide) (by decide)
    have hclosed : SingleLine (Text.upperCase f ++ argumentsLine args).toList := by
      rw [String.toList_append]
      exact hname.append (singleLine_argumentsLine hargs)
    have hlength : 2 ≤ (argumentsLine args).length := by
      have hparens : "(".length = 1 ∧ ")".length = 1 := ⟨rfl, rfl⟩
      rw [argumentsLine, String.length_append, String.length_append]
      omega
    exact ⟨hhead, hclosed, hlength, legible_ofArgs label _ 0 _ args hargs⟩

theorem legible_ofArgs (label : String → Nat → String) (function : String) (index first : Nat) :
    (es : List Expr) → (∀ e ∈ es, ∀ t ∈ e.tokens, t.Spelled) →
      (Rows.ofArgs label function index first es).Legible
  | [], _ => trivial
  | e :: es, h => by
    rw [List.forall_mem_cons] at h
    exact ⟨legible_ofExpr label first e h.1, legible_ofArgs label function _ _ es h.2⟩

end

end Expr

section

open Outline (flow flow_cons flow_append flow_indented_inj flow_row_inj atLineEnd_flow
  rowLines_lines)

/-- Whether lines that are equal, wherever they stand and whatever follows, tell a fact and where
they end. -/
def Tells (fact : Prop) (ls ms : Nat → List String) : Prop :=
  ∀ {depth : Nat} {front rest rest' : List Char}, AtLineEnd rest → AtLineEnd rest' →
    flow front (ls depth) ++ rest = flow front (ms depth) ++ rest' → fact ∧ rest = rest'

/-- More lines may follow. -/
theorem Tells.append {fact : Prop} {ls ms : Nat → List String} (h : Tells fact ls ms) {depth : Nat}
    {front rest rest' : List Char} {more more' : List String} (hrest : AtLineEnd rest)
    (hrest' : AtLineEnd rest')
    (heq : flow front (ls depth ++ more) ++ rest = flow front (ms depth ++ more') ++ rest') :
    fact ∧ flow front more ++ rest = flow front more' ++ rest' := by
  rw [flow_append, flow_append, List.append_assoc, List.append_assoc] at heq
  exact h (atLineEnd_flow more hrest) (atLineEnd_flow more' hrest') heq

/-- Whether the lines of a block by two markings tell that these agree on what can be seen. -/
def Block.Told (isOpen isOpen' : Nat → Bool) (b : Block) : Prop :=
  Tells (b.SameShown isOpen isOpen') (b.lines isOpen) (b.lines isOpen')

def Rows.Told (isOpen isOpen' : Nat → Bool) (rs : Rows) : Prop :=
  Tells (rs.SameShown isOpen isOpen') (rs.lines isOpen) (rs.lines isOpen')

theorem flow_cons_cancel {front rest rest' : List Char} {l : String} {ls ms : List String}
    (heq : flow front (l :: ls) ++ rest = flow front (l :: ms) ++ rest') :
    flow front ls ++ rest = flow front ms ++ rest' := by
  simp only [flow_cons, List.cons_append, List.append_assoc] at heq
  exact List.append_cancel_left (List.append_cancel_left (List.cons.inj heq).2)

theorem told_line (text : String) : (Block.line text).Told isOpen isOpen' := by
  intro depth front rest rest' _ _ heq
  exact ⟨trivial, List.append_cancel_left heq⟩

theorem told_paren {inner : Block} (h : inner.Told isOpen isOpen') :
    (Block.paren inner).Told isOpen isOpen' := by
  intro depth front rest rest' hrest hrest' heq
  obtain ⟨hsame, hclosing⟩ := h.append hrest hrest' (flow_cons_cancel heq)
  exact ⟨hsame, List.append_cancel_left hclosing⟩

theorem told_binary {left right : Block} {o : BinaryOp} (hleft : left.Told isOpen isOpen')
    (hright : right.Told isOpen isOpen') : (Block.binary left o right).Told isOpen isOpen' := by
  intro depth front rest rest' hrest hrest' heq
  simp only [Block.lines, List.cons_append, List.append_assoc] at heq
  obtain ⟨hsame, hsign⟩ := hleft.append hrest hrest' (flow_cons_cancel heq)
  obtain ⟨hsame', hclosing⟩ := hright.append hrest hrest' (flow_cons_cancel hsign)
  exact ⟨⟨hsame, hsame'⟩, List.append_cancel_left hclosing⟩

theorem preview_ne_opening {function preview : String} (h : 2 ≤ preview.length) :
    function ++ preview ≠ function ++ "(" := by
  intro heq
  have hlength := congrArg String.length heq
  have hopening : "(".length = 1 := rfl
  rw [String.length_append, String.length_append, hopening] at hlength
  omega

/-- An open call is told from a closed one by its headline. -/
theorem told_call {id : Nat} {function preview : String} {rows : Rows}
    (h : (Block.call id function preview rows).Legible) (hrows : rows.Told isOpen isOpen') :
    (Block.call id function preview rows).Told isOpen isOpen' := by
  obtain ⟨hopening, hclosed, hlength, -⟩ := h
  have hne : function ++ preview ≠ function ++ "(" := preview_ne_opening hlength
  intro depth front rest rest' hrest hrest' heq
  beta_reduce at heq
  rw [Block.lines, Block.lines] at heq
  rw [Block.SameShown]
  -- The headlines of the open and of the closed call differ, and each ends with its line.
  cases hopen : isOpen id <;> cases hopen' : isOpen' id <;> rw [hopen, hopen'] at heq
  case true.true =>
    obtain ⟨hsame, hclosing⟩ := hrows.append hrest hrest' (flow_cons_cancel heq)
    exact ⟨⟨rfl, fun _ => hsame⟩, List.append_cancel_left hclosing⟩
  case false.false =>
    exact ⟨⟨rfl, fun habsurd => absurd habsurd (by decide)⟩, List.append_cancel_left heq⟩
  case true.false =>
    exact absurd (flow_indented_inj hopening hclosed hrest hrest' heq).1.symm hne
  case false.true =>
    exact absurd (flow_indented_inj hclosed hopening hrest hrest' heq).1 hne

/-- The labels of a row are the same by both markings, so they say nothing and hide nothing. -/
theorem told_row {label : String} {value : Block} {rest : Rows} (hsolid : value.Solid)
    (hvalue : value.Told isOpen isOpen') (hrest : rest.Told isOpen isOpen') :
    (Rows.cons label value rest).Told isOpen isOpen' := by
  intro depth front more more' hmore hmore' heq
  beta_reduce at heq
  rw [Rows.lines, Rows.lines, flow_append, flow_append, List.append_assoc, List.append_assoc,
    rowLines_lines hsolid, rowLines_lines hsolid] at heq
  have hlines := flow_row_inj heq
  -- Behind the label stands the headline of the value, with the rest of its lines below it.
  rw [← value.lines_eq, ← value.lines_eq] at hlines
  obtain ⟨hsame, hfurther⟩ :=
    hvalue (atLineEnd_flow _ hmore) (atLineEnd_flow _ hmore') hlines
  obtain ⟨hsames, hmores⟩ := hrest hmore hmore' hfurther
  exact ⟨⟨hsame, hsames⟩, hmores⟩

mutual

theorem Block.told : (b : Block) → b.Solid → b.Legible → b.Told isOpen isOpen'
  | .line text, _, _ => told_line text
  | .paren inner, hsolid, h => told_paren (inner.told hsolid h)
  | .binary left _ right, hsolid, h =>
    told_binary (left.told hsolid.1 h.1) (right.told hsolid.2 h.2)
  | .call _ _ _ rows, hsolid, h => told_call h (rows.told hsolid.2 h.2.2.2)

theorem Rows.told : (rs : Rows) → rs.Solid → rs.Legible → rs.Told isOpen isOpen'
  | .nil, _, _ => fun _ _ heq => ⟨trivial, heq⟩
  | .cons _ value rest, hsolid, h =>
    told_row hsolid.1 (value.told hsolid.1 h.1) (rest.told hsolid.2 h.2)

end

end

/-! ## Headers -/

/-- A line feed in a single line stands in front of the quote that closes its string. -/
theorem Text.SingleLine.quote_mem {cs front back : List Char} (h : SingleLine cs)
    (heq : cs = front ++ '\n' :: back) : '"' ∈ back := by
  induction h generalizing front with
  | nil => simp at heq
  | char notQuote notNewline _ ih =>
    cases front with
    | nil => exact absurd (List.cons.inj heq).1 notNewline
    | cons c front => exact ih (List.cons.inj heq).2
  | @quoted contents cs quoteless _ ih =>
    cases front with
    | nil => exact absurd (List.cons.inj heq).1 (by decide)
    | cons c front =>
      have htail := (List.cons.inj heq).2
      rcases List.append_eq_append_iff.mp htail with ⟨inner, hfront, hrest⟩ | ⟨inner, -, hback⟩
      · -- The line feed stands behind the string.
        cases inner with
        | nil => exact absurd (List.cons.inj hrest).1 (by decide)
        | cons d inner => exact ih (List.cons.inj hrest).2
      · have hquote : '"' ∈ '\n' :: back := by
          rw [hback]
          exact List.mem_append_right _ List.mem_cons_self
        rcases List.mem_cons.mp hquote with habsurd | hquote
        · exact absurd habsurd (by decide)
        · exact hquote

namespace Outline

variable {o p q : Outline}

/-- Only a closed call at the root has a header above it. -/
theorem exists_call_of_headerVisible (h : p.headerVisible = true) :
    ∃ id f preview rows, p.root = .call id f preview rows ∧ p.isOpen id = false := by
  unfold headerVisible at h
  cases hroot : p.root with
  | call id f preview rows =>
    rw [hroot] at h
    exact ⟨id, f, preview, rows, rfl, by simpa using h⟩
  | line _ | paren _ | binary _ _ _ =>
    rw [hroot] at h
    exact absurd h Bool.false_ne_true

theorem headline_isSuffix_text {id : Nat} {f preview : String} {rows : Rows}
    (hroot : p.root = .call id f preview rows) (hclosed : p.isOpen id = false) :
    (f ++ preview).toList <:+ p.text.toList := by
  have hbody : p.body.toList = (f ++ preview).toList := by
    rw [body, hroot, Block.lines, hclosed, if_neg (by decide), String.intercalate_singleton,
      toList_indented]
    rfl
  rw [text_eq, ← hbody, String.toList_append]
  exact List.suffix_append _ _

theorem closing_isSuffix_text {id : Nat} {f preview : String} {rows : Rows}
    (hroot : p.root = .call id f preview rows) (hopen : p.isOpen id = true) :
    ['\n', ')'] <:+ p.text.toList := by
  have hclosing : (indented 0 ")").toList = [')'] := toList_indented 0 ")"
  rw [text_eq, body, hroot, Block.lines, if_pos hopen, List.cons_append, String.toList_append,
    Expr.toList_intercalate_cons, List.flatMap_append, List.flatMap_singleton, hclosing,
    ← List.append_assoc, ← List.append_assoc]
  exact List.suffix_append _ _

/-- The header is no line of the blocks: the text of a closed root ends with the call on one line,
and that of an open one with a closing parenthesis alone. -/
theorem text_ne_of_headerVisible (h : SameBlocks p q) (hlegible : p.root.Legible)
    (hp : p.headerVisible = true) (hq : q.headerVisible = false) : p.text ≠ q.text := by
  obtain ⟨id, f, preview, rows, hroot, hclosed⟩ := exists_call_of_headerVisible hp
  have hroot' : q.root = .call id f preview rows := h.root_eq.trans hroot
  have hopen : q.isOpen id = true := by
    rw [headerVisible, hroot'] at hq
    simpa using hq
  rw [hroot] at hlegible
  obtain ⟨-, hline, hlength, -⟩ := hlegible
  intro heq
  have hshort : ['\n', ')'].length ≤ (f ++ preview).toList.length := by
    rw [String.length_toList, String.length_append]
    exact Nat.le_trans hlength (Nat.le_add_left _ _)
  have hclosing := closing_isSuffix_text hroot' hopen
  rw [← heq] at hclosing
  obtain ⟨front, hfront⟩ :=
    List.suffix_of_suffix_length_le hclosing (headline_isSuffix_text hroot hclosed) hshort
  exact absurd (hline.quote_mem hfront.symm) (by decide)

theorem newline_cons_body (o : Outline) :
    '\n' :: o.body.toList = flow [] (o.root.lines o.isOpen 0) ++ [] := by
  rw [List.append_nil, body, o.root.lines_eq, newline_cons_intercalate]

/-- The body tells what can be seen. -/
theorem sameShown_of_body_eq (h : SameBlocks p q) (hsolid : p.root.Solid)
    (hlegible : p.root.Legible) (heq : p.body = q.body) :
    p.root.SameShown p.isOpen q.isOpen := by
  have hflow : flow [] (p.root.lines p.isOpen 0) ++ [] =
      flow [] (p.root.lines q.isOpen 0) ++ [] := by
    rw [← newline_cons_body, heq, newline_cons_body, h.root_eq]
  have hend : AtLineEnd [] := by simp [AtLineEnd]
  exact (p.root.told hsolid hlegible hend hend hflow).1

/-- The marks of what cannot be seen do not show. -/
theorem text_congr (h : SameBlocks p q) (hsame : p.root.SameShown p.isOpen q.isOpen) :
    p.text = q.text := by
  have hvisible : p.headerVisible = q.headerVisible := by
    unfold headerVisible
    rw [h.root_eq]
    cases hroot : p.root with
    | call id f preview rows =>
      rw [hroot] at hsame
      exact congrArg not hsame.1
    | line _ | paren _ | binary _ _ _ => rfl
  rw [text_eq, text_eq, body, body, h.header_eq, h.root_eq, hvisible, p.root.lines_congr 0 hsame]

/-- Two outlines of the same blocks have the same text exactly if their marks agree on what can be
seen. -/
theorem text_eq_iff_sameShown (h : SameBlocks p q) (hsolid : p.root.Solid)
    (hlegible : p.root.Legible) :
    p.text = q.text ↔ p.root.SameShown p.isOpen q.isOpen := by
  refine ⟨fun heq => ?_, text_congr h⟩
  cases hp : p.headerVisible <;> cases hq : q.headerVisible
  case false.true =>
    have hlegible' : q.root.Legible := by rw [h.root_eq]; exact hlegible
    have hsymm : SameBlocks q p := ⟨h.header_eq.symm, h.root_eq.symm⟩
    exact absurd heq.symm (text_ne_of_headerVisible hsymm hlegible' hq hp)
  case true.false => exact absurd heq (text_ne_of_headerVisible h hlegible hp hq)
  all_goals
    -- The same header, or none, stands above both bodies.
    rw [text_eq, text_eq, hp, hq, h.header_eq] at heq
    have hbodies := congrArg String.toList heq
    rw [String.toList_append, String.toList_append] at hbodies
    have hbody := String.toList_inj.mp (List.append_cancel_left hbodies)
    exact sameShown_of_body_eq h hsolid hlegible hbody

end Outline

/-! ## The number of a call and the calls around it -/

mutual

theorem Block.map_fst_paths : {first : Nat} → (b : Block) → b.Numbered first →
    b.paths.map Prod.fst = List.range' first b.callCount
  | _, .line _, _ => rfl
  | _, .paren inner, h => inner.map_fst_paths h
  | first, .binary left _ right, h => by
    rw [Block.paths, Block.callCount, List.map_append, left.map_fst_paths h.1,
      right.map_fst_paths h.2, List.range'_append_1]
  | first, .call _ _ _ rows, h => by
    have hrows := rows.map_fst_paths h.2
    rw [Block.paths, Block.callCount, List.range'_succ, List.map_cons, List.map_map, ← hrows, h.1]
    rfl

theorem Rows.map_fst_paths : {first : Nat} → (rs : Rows) → rs.Numbered first →
    rs.paths.map Prod.fst = List.range' first rs.callCount
  | _, .nil, _ => rfl
  | _, .cons _ value rest, h => by
    rw [Rows.paths, Rows.callCount, List.map_append, value.map_fst_paths h.1,
      rest.map_fst_paths h.2, List.range'_append_1]

end

mutual

/-- A call has a greater number than the calls around it. -/
theorem Block.lt_of_mem_paths {id outer : Nat} {around : List Nat} (houter : outer ∈ around) :
    {first : Nat} → (b : Block) → b.Numbered first → (id, around) ∈ b.paths → outer < id
  | _, .line _, _, h => absurd h List.not_mem_nil
  | _, .paren inner, hnumbered, h => inner.lt_of_mem_paths houter hnumbered h
  | _, .binary left _ right, hnumbered, h => by
    rcases List.mem_append.mp h with h | h
    · exact left.lt_of_mem_paths houter hnumbered.1 h
    · exact right.lt_of_mem_paths houter hnumbered.2 h
  | first, .call i _ _ rows, hnumbered, h => by
    rcases List.mem_cons.mp h with heq | h
    · -- No call is around the call itself.
      rw [(Prod.mk.inj heq).2] at houter
      exact absurd houter List.not_mem_nil
    · obtain ⟨⟨j, inner⟩, hinner, heq⟩ := List.mem_map.mp h
      obtain ⟨rfl, rfl⟩ := Prod.mk.inj heq
      rcases List.mem_cons.mp houter with rfl | houter
      · -- The rows of the call hold the numbers after its own.
        have hmem := List.mem_map_of_mem hinner (f := Prod.fst)
        rw [rows.map_fst_paths hnumbered.2, List.mem_range'_1] at hmem
        have hfirst := hnumbered.1
        omega
      · exact rows.lt_of_mem_paths houter hnumbered.2 hinner

theorem Rows.lt_of_mem_paths {id outer : Nat} {around : List Nat} (houter : outer ∈ around) :
    {first : Nat} → (rs : Rows) → rs.Numbered first → (id, around) ∈ rs.paths → outer < id
  | _, .nil, _, h => absurd h List.not_mem_nil
  | _, .cons _ value rest, hnumbered, h => by
    rcases List.mem_append.mp h with h | h
    · exact value.lt_of_mem_paths houter hnumbered.1 h
    · exact rest.lt_of_mem_paths houter hnumbered.2 h

end

namespace Outline

variable {o p q : Outline} {id outer : Nat}

/-- Whether there is a call `id` with no closed call around it. -/
def Visible (o : Outline) (id : Nat) : Prop :=
  VisibleIn o.root.paths o.isOpen id

/-- Whether the call `id` stands in the arguments of the call `outer`, at any depth. -/
def Inside (o : Outline) (outer id : Nat) : Prop :=
  ∃ around, (id, around) ∈ o.root.paths ∧ outer ∈ around

theorem Inside.ne (h : o.root.Numbered 0) (hinside : o.Inside outer id) : id ≠ outer := by
  obtain ⟨around, hmem, houter⟩ := hinside
  have hlt := o.root.lt_of_mem_paths houter h hmem
  omega

/-- What stands in a closed call is not visible. -/
theorem Inside.not_visible (h : o.root.Numbered 0) (hinside : o.Inside outer id)
    (hclosed : o.isOpen outer = false) : ¬o.Visible id := by
  rintro ⟨around, hmem, hopen⟩
  obtain ⟨around', hmem', houter⟩ := hinside
  have hnodup : (o.root.paths.map Prod.fst).Nodup := by
    rw [o.root.map_fst_paths h]
    exact List.nodup_range'
  -- No number stands in the tree twice, so the calls around it are known.
  have hsame := List.inj_on_of_nodup_map hnodup hmem' hmem rfl
  rw [(Prod.mk.inj hsame).2] at houter
  rw [hopen outer houter] at hclosed
  exact absurd hclosed (by decide)

theorem Visible.lt_length_bits (h : o.root.Numbered 0) (hid : o.Visible id) :
    id < o.bits.length := by
  obtain ⟨around, hmem, -⟩ := hid
  have hmem := List.mem_map_of_mem hmem (f := Prod.fst)
  rw [o.root.map_fst_paths h, List.mem_range'_1] at hmem
  rw [length_bits]
  omega

/-- Two outlines of the same blocks have the same text exactly if the same calls are visible and
each of them is open in both or in none. -/
theorem text_eq_iff_sameVisible (h : SameBlocks p q) (hsolid : p.root.Solid)
    (hlegible : p.root.Legible) :
    p.text = q.text ↔
      ∀ id, (p.Visible id ↔ q.Visible id) ∧ (p.Visible id → p.isOpen id = q.isOpen id) := by
  rw [text_eq_iff_sameShown h hsolid hlegible, Block.sameShown_iff]
  unfold Visible
  rw [h.root_eq]
  rfl

/-- Folds in a closed call change no mark of what is visible. -/
theorem text_after_inside (h : o.root.Numbered 0) (hclosed : o.isOpen outer = false)
    {folds : List Fold} (hfolds : ∀ f ∈ folds, ∃ i, f.target? = some i ∧ o.Inside outer i) :
    (o.after folds).text = o.text := by
  refine (text_congr (sameBlocks_after h folds) (o.root.sameShown_of_visible fun id hid => ?_)).symm
  refine (isOpen_after_of_ne h folds fun f hf => ?_).symm
  obtain ⟨i, htarget, hinside⟩ := hfolds f hf
  refine ⟨i, htarget, ?_⟩
  rintro rfl
  exact hinside.not_visible h hclosed hid

/-- However a formula is folded in two ways, its text is the same exactly if the same calls are
visible and each of them is open in both or in none. Folds inside a closed call do not change the
text; when that call is opened again, all is as if it had been open before them. To toggle a visible
call changes the text. -/
theorem text_shows_visible {settings : Settings} {source : String} {o : Outline}
    (h : ofSource settings source = .ok o) (folds folds' : List Fold) :
    let p := o.after folds
    let q := o.after folds'
    (p.text = q.text ↔
      ∀ id, (p.Visible id ↔ q.Visible id) ∧ (p.Visible id → p.isOpen id = q.isOpen id)) ∧
    (∀ (outer : Nat) (inner : List Fold), p.isOpen outer = false →
      (∀ f ∈ inner, ∃ id, f.target? = some id ∧ p.Inside outer id) →
      (p.after inner).text = p.text ∧
      p.after (inner ++ [.setOpen outer true]) = p.after (.setOpen outer true :: inner) ∧
      ∀ id, p.Inside outer id →
        (p.after (inner ++ [.setOpen outer true])).isOpen id = (p.after inner).isOpen id) ∧
    ∀ id, p.Visible id → (p.after [.toggle id]).text ≠ p.text := by
  intro p q
  obtain ⟨e, hparse, rfl⟩ := exists_ofSource h
  have hspelled := (Formula.canonical_of_parse hparse).spelled
  have hnumbered := numbered_ofExpr settings (Text.trim source) e
  have hp := sameBlocks_after hnumbered folds
  have hq := sameBlocks_after hnumbered folds'
  have hpnumbered : p.root.Numbered 0 := by rw [hp.root_eq]; exact hnumbered
  have hsolid : p.root.Solid := by
    rw [hp.root_eq]
    exact e.solid_ofExpr settings.label 0 hspelled
  have hlegible : p.root.Legible := by
    rw [hp.root_eq]
    exact e.legible_ofExpr settings.label 0 hspelled
  refine ⟨?_, fun outer inner hclosed hinner => ?_, fun id hid heq => ?_⟩
  · have hpq : SameBlocks p q :=
      ⟨hq.header_eq.trans hp.header_eq.symm, hq.root_eq.trans hp.root_eq.symm⟩
    exact text_eq_iff_sameVisible hpq hsolid hlegible
  · have hothers : ∀ f ∈ inner, ∃ i, f.target? = some i ∧ i ≠ outer := by
      intro f hf
      obtain ⟨i, htarget, hinside⟩ := hinner f hf
      exact ⟨i, htarget, hinside.ne hpnumbered⟩
    refine ⟨text_after_inside hpnumbered hclosed hinner,
      after_concat hpnumbered rfl inner hothers, fun id hinside => ?_⟩
    have hnumbered' : (p.after inner).root.Numbered 0 := by
      rw [(sameBlocks_after hpnumbered inner).root_eq]
      exact hpnumbered
    rw [after_append]
    exact isOpen_fold_of_ne hnumbered' rfl (hinside.ne hpnumbered).symm
  · have hsame := (text_eq_iff_sameVisible (sameBlocks_after hpnumbered [.toggle id]) hsolid
      hlegible).mp heq.symm
    have hmark := (hsame id).2 hid
    rw [isOpen_toggle hpnumbered (hid.lt_length_bits hpnumbered)] at hmark
    exact absurd hmark (by simp)

/-- The call in the closed root is open in the one outline and closed in the other. -/
theorem text_shows_visible_of_nested :
    let source := "=SUM(ABS(1),2)"
    let e : Expr := .call "SUM" [.call "ABS" [.number "1"], .number "2"]
    let o := ofExpr {} (Text.trim source) e
    let p := o.after [.setOpen 0 false]
    let q := o.after [.setOpen 1 false, .setOpen 0 false]
    ofSource {} source = .ok o ∧
      ((p.text = q.text ↔
        ∀ id, (p.Visible id ↔ q.Visible id) ∧ (p.Visible id → p.isOpen id = q.isOpen id)) ∧
      (∀ (outer : Nat) (inner : List Fold), p.isOpen outer = false →
        (∀ f ∈ inner, ∃ id, f.target? = some id ∧ p.Inside outer id) →
        (p.after inner).text = p.text ∧
        p.after (inner ++ [.setOpen outer true]) = p.after (.setOpen outer true :: inner) ∧
        ∀ id, p.Inside outer id →
          (p.after (inner ++ [.setOpen outer true])).isOpen id = (p.after inner).isOpen id) ∧
      ∀ id, p.Visible id → (p.after [.toggle id]).text ≠ p.text) := by
  intro source e o p q
  have hparse : Formula.parse source = .ok e := by cbv
  have hsource : ofSource {} source = .ok o := ofSource_of_parse_ok hparse _
  exact ⟨hsource, text_shows_visible hsource _ _⟩

end Outline

end FormulaTree
