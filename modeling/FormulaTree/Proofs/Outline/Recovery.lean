import FormulaTree.Display
import FormulaTree.Proofs.Expr.SingleLine
import FormulaTree.Proofs.Outline.Lines
import FormulaTree.Proofs.Outline.MarkedTree
import FormulaTree.Proofs.Outline.Printer
import FormulaTree.Proofs.RoundTrip

/-!
# The formula behind a tree

The text of a formula's tree tells the formula, except for the letter case of the functions that are
shown as blocks. Line by line it tells what each block is: an operand stands on one line, a headline
that ends with an opening parenthesis starts a block, and what stands where the lines of the block
could end tells whether they do.
-/

namespace FormulaTree

namespace Expr

open Text (SingleLine singleLine_of_all)

/-! ## Headlines -/

/-- Whether an expression is shown on one line. -/
def isLeaf : Expr → Bool
  | number _ | string _ | name _ | unary _ _ => true
  | binary _ _ _ | paren _ | call _ _ => false

/-- The first line of an expression with every call open. -/
def headline : Expr → String
  | binary _ _ _ | paren _ => "("
  | call f _ => Text.upperCase f ++ "("
  | number text | name text => text
  | string contents => (string contents).oneLine
  | unary sign operand => (unary sign operand).oneLine

theorem singleLine_headline {e : Expr} (h : ∀ t ∈ e.tokens, t.Spelled) :
    SingleLine e.headline.toList := by
  have hopen : SingleLine "(".toList := singleLine_of_all rfl
  cases e with
  | number _ | name _ | string _ | unary _ _ => exact singleLine_oneLine _ h
  | binary _ _ _ | paren _ => exact hopen
  | call f args =>
    have hf : SingleLine (Text.upperCase f).toList :=
      singleLine_of_parts (Token.isNamePart_upperCase (h _ List.mem_cons_self)) (by decide)
        (by decide)
    rw [headline, String.toList_append]
    exact hf.append hopen

theorem headline_of_isLeaf {e : Expr} (h : e.isLeaf = true) : e.headline = e.oneLine := by
  cases e with
  | number _ | name _ | string _ | unary _ _ => rfl
  | binary _ _ _ | paren _ | call _ _ => exact absurd h (by simp [isLeaf])

/-- Exactly the headlines of what takes more lines end with an opening parenthesis. -/
theorem getLast?_headline {e : Expr} (h : ∀ t ∈ e.tokens, t.Spelled) :
    e.headline.toList.getLast? = some '(' ↔ e.isLeaf = false := by
  have hopen : "(".toList = ['('] := rfl
  cases hleaf : e.isLeaf with
  | true =>
    obtain ⟨c, hlast, hc⟩ := getLast?_oneLine e h
    rw [headline_of_isLeaf hleaf, hlast]
    simp [hc]
  | false =>
    cases e with
    | number _ | name _ | string _ | unary _ _ => exact absurd hleaf (by simp [isLeaf])
    | binary _ _ _ | paren _ => simp only [headline, hopen, List.getLast?_singleton]
    | call f args =>
      rw [headline, String.toList_append, List.getLast?_append, hopen]
      simp

theorem isLeaf_eq_of_headline {e e' : Expr} (h : ∀ t ∈ e.tokens, t.Spelled)
    (h' : ∀ t ∈ e'.tokens, t.Spelled) (heq : e.headline = e'.headline) : e.isLeaf = e'.isLeaf := by
  have hlast := getLast?_headline h
  rw [heq, getLast?_headline h'] at hlast
  cases hleaf : e.isLeaf <;> cases hleaf' : e'.isLeaf <;> simp_all

theorem headline_call_ne {f : String} (h : (Token.name f).Spelled) :
    Text.upperCase f ++ "(" ≠ "(" := by
  obtain ⟨c, cs, hf, -⟩ := Text.startsSolid_upperCase h
  intro heq
  have hlength := congrArg (fun s => s.toList.length) heq
  simp [hf] at hlength

end Expr

/-! ## The lines of an expression -/

namespace Outline

variable {front rest rest' : List Char}

/-- Some lines in a text, each behind a line feed and the same characters in front of it. -/
def flow (front : List Char) (ls : List String) : List Char :=
  ls.flatMap fun l => '\n' :: (front ++ l.toList)

theorem flow_cons (front : List Char) (l : String) (ls : List String) :
    flow front (l :: ls) = '\n' :: (front ++ l.toList ++ flow front ls) :=
  List.flatMap_cons

theorem flow_append (front : List Char) (ls ms : List String) :
    flow front (ls ++ ms) = flow front ls ++ flow front ms :=
  List.flatMap_append

/-- What stands in front of every line may as well belong to the lines. -/
theorem flow_map (front : List Char) (s : String) (ls : List String) :
    flow front (ls.map (s ++ ·)) = flow (front ++ s.toList) ls := by
  induction ls with
  | nil => rfl
  | cons l ls ih =>
    rw [List.map_cons, flow_cons, flow_cons, ih, String.toList_append, ← List.append_assoc front]

theorem newline_cons_intercalate (l : String) (ls : List String) :
    '\n' :: ("\n".intercalate (l :: ls)).toList = flow [] (l :: ls) := by
  rw [Expr.toList_intercalate_cons, flow_cons]
  rfl

theorem atLineEnd_flow (ls : List String) (h : Text.AtLineEnd rest) :
    Text.AtLineEnd (flow front ls ++ rest) := by
  cases ls with
  | nil => exact h
  | cons l ls =>
    intro c hc
    cases hc
    rfl

open Text (SingleLine AtLineEnd)

/-- A line at a known depth can be told from the lines behind it. -/
theorem flow_indented_inj {depth : Nat} {s t : String} {ls ms : List String}
    (hs : SingleLine s.toList) (ht : SingleLine t.toList) (hrest : AtLineEnd rest)
    (hrest' : AtLineEnd rest')
    (h : flow front (indented depth s :: ls) ++ rest = flow front (indented depth t :: ms) ++ rest') :
    s = t ∧ flow front ls ++ rest = flow front ms ++ rest' := by
  simp only [flow_cons, toList_indented, List.cons_append, List.append_assoc] at h
  have hline := List.append_cancel_left (List.append_cancel_left (List.cons.inj h).2)
  obtain ⟨hst, hmore⟩ := hs.append_inj ht (atLineEnd_flow ls hrest) (atLineEnd_flow ms hrest') hline
  exact ⟨String.toList_inj.mp hst, hmore⟩

/-- What follows the label of a row is what follows the indentation elsewhere. -/
theorem flow_row_inj {depth : Nat} {label s t : String} {ls ms : List String}
    (h : flow front ((rowStart depth label ++ s) :: ls.map (rowStart depth "" ++ ·)) ++ rest =
      flow front ((rowStart depth label ++ t) :: ms.map (rowStart depth "" ++ ·)) ++ rest') :
    flow (front ++ (rowStart depth "").toList) (indented (depth + 1) s :: ls) ++ rest =
      flow (front ++ (rowStart depth "").toList) (indented (depth + 1) t :: ms) ++ rest' := by
  simp only [flow_cons, flow_map, String.toList_append, List.cons_append, List.append_assoc] at h
  have hvalue := List.append_cancel_left (List.append_cancel_left (List.cons.inj h).2)
  simp only [flow_cons, toList_indented, List.cons_append, List.append_assoc, hvalue]

/-- Where the lines of a block end, no line can stand that is deeper. -/
theorem flow_closing_ne_deeper {depth : Nat} {s : String} {ls ms : List String} :
    flow front (indented depth ")" :: ls) ++ rest ≠
      flow front (indented (depth + 1) s :: ms) ++ rest' := by
  intro h
  have hspaces : List.replicate (2 * (depth + 1)) ' ' = List.replicate (2 * depth) ' ' ++ [' ', ' '] := by
    rw [Nat.mul_succ, List.replicate_add]
    rfl
  simp only [flow_cons, toList_indented, hspaces, List.cons_append, List.append_assoc] at h
  have hline := List.append_cancel_left (List.append_cancel_left (List.cons.inj h).2)
  exact absurd (List.cons.inj hline).1 (by decide)

/-- Where the lines of a call end, no row can stand. -/
theorem flow_closing_ne_row {depth : Nat} {label s : String} {ls ms : List String} :
    flow front (indented depth ")" :: ls) ++ rest ≠
      flow front ((rowStart depth label ++ s) :: ms) ++ rest' := by
  intro h
  have hbar : ∃ cs, (rowStart depth label).toList = '|' :: cs := by
    simp only [rowStart, String.toList_append, Text.toList_copies, List.replicate_succ]
    exact ⟨_, rfl⟩
  obtain ⟨cs, hcs⟩ := hbar
  simp only [flow_cons, toList_indented, String.toList_append, hcs, List.cons_append,
    List.append_assoc] at h
  have hline := List.append_cancel_left (List.cons.inj h).2
  cases depth with
  | zero => exact absurd (List.cons.inj hline).1 (by decide)
  | succ depth =>
    rw [Nat.mul_succ, List.replicate_succ] at hline
    exact absurd (List.cons.inj hline).1 (by decide)

end Outline

/-! ## Reading the lines -/

namespace Expr

mutual

/-- The expression with the names of the calls that are blocks in upper case. -/
def upperCalls : Expr → Expr
  | number text => number text
  | string contents => string contents
  | name text => name text
  | unary sign operand => unary sign operand
  | binary left o right => binary left.upperCalls o right.upperCalls
  | paren inner => paren inner.upperCalls
  | call f args => call f.toUpper (upperCallsAll args)

def upperCallsAll : List Expr → List Expr
  | [] => []
  | e :: es => e.upperCalls :: upperCallsAll es

end

variable (label : String → Nat → String)

/-- The lines of an expression with every call open. -/
def lines (first depth : Nat) (e : Expr) : List String :=
  (Block.ofExpr label first e).lines (fun _ => true) depth

/-- The lines of the arguments of a function, from the one at `index` on, and the end of the call. -/
def argLines (function : String) (index first depth : Nat) (es : List Expr) : List String :=
  (Rows.ofArgs label function index first es).lines (fun _ => true) depth
    ++ [Outline.indented depth ")"]

theorem lines_eq (first depth : Nat) (e : Expr) :
    e.lines label first depth =
      Outline.indented depth e.headline :: (e.lines label first depth).tail := by
  cases e <;> rfl

theorem lines_paren (first depth : Nat) (inner : Expr) :
    (paren inner).lines label first depth =
      Outline.indented depth "(" ::
        (inner.lines label first (depth + 1) ++ [Outline.indented depth ")"]) :=
  rfl

theorem lines_binary (first depth : Nat) (left : Expr) (o : BinaryOp) (right : Expr) :
    (binary left o right).lines label first depth =
      Outline.indented depth "(" ::
        (left.lines label first (depth + 1) ++ (Outline.indented (depth + 1) o.symbol ::
          (right.lines label (first + left.blockCount) (depth + 1) ++
            [Outline.indented depth ")"]))) := by
  show _ :: _ ++ _ :: _ ++ _ = _
  rw [List.append_assoc, List.cons_append, List.cons_append]
  rfl

theorem lines_call (first depth : Nat) (f : String) (args : List Expr) :
    (call f args).lines label first depth =
      Outline.indented depth (Text.upperCase f ++ "(") ::
        argLines label (Text.upperCase f) 0 (first + 1) depth args :=
  rfl

theorem argLines_cons (function : String) (index first depth : Nat) (e : Expr) (es : List Expr) :
    argLines label function index first depth (e :: es) =
      Outline.rowLines depth (label function index) (e.lines label first (depth + 1)) ++
        argLines label function (index + 1) (first + e.blockCount) depth es := by
  rw [argLines, Rows.ofArgs, Rows.lines, List.append_assoc]
  rfl

open Outline (flow flow_append flow_cons flow_map flow_indented_inj flow_closing_ne_deeper
  flow_closing_ne_row atLineEnd_flow indented rowStart)
open Text (AtLineEnd SingleLine singleLine_of_all)

/-- Both the first line and what is behind it are known. -/
theorem headline_eq_of_flow {e e' : Expr} (h : e.Canonical) (h' : e'.Canonical)
    {first first' depth : Nat} {front rest rest' : List Char} (hrest : AtLineEnd rest)
    (hrest' : AtLineEnd rest')
    (heq : flow front (e.lines label first depth) ++ rest =
      flow front (e'.lines label first' depth) ++ rest') :
    e.headline = e'.headline ∧ e.isLeaf = e'.isLeaf ∧
      flow front (e.lines label first depth).tail ++ rest =
        flow front (e'.lines label first' depth).tail ++ rest' := by
  rw [e.lines_eq, e'.lines_eq] at heq
  obtain ⟨hheadline, htail⟩ := flow_indented_inj (singleLine_headline h.spelled)
    (singleLine_headline h'.spelled) hrest hrest' heq
  exact ⟨hheadline, isLeaf_eq_of_headline h.spelled h'.spelled hheadline, htail⟩

theorem tail_lines_of_isLeaf {e : Expr} (h : e.isLeaf = true) (first depth : Nat) :
    (e.lines label first depth).tail = [] := by
  cases e with
  | number _ | name _ | string _ | unary _ _ => rfl
  | binary _ _ _ | paren _ | call _ _ => exact absurd h (by simp [isLeaf])

/-- Whether an expression is known from its lines, wherever they stand and whatever follows. -/
def ToldByLines (e : Expr) : Prop :=
  ∀ {e' : Expr} {first first' depth : Nat} {front rest rest' : List Char}, e'.Canonical →
    AtLineEnd rest → AtLineEnd rest' →
    flow front (e.lines label first depth) ++ rest =
      flow front (e'.lines label first' depth) ++ rest' →
    e.upperCalls = e'.upperCalls ∧ rest = rest'

/-- Whether the arguments of a function are known from their rows and the end of the call. -/
def ToldByRows (es : List Expr) : Prop :=
  ∀ {es' : List Expr} {function : String} {index first first' depth : Nat}
    {front rest rest' : List Char}, (∀ e ∈ es', e.Canonical) → AtLineEnd rest → AtLineEnd rest' →
    flow front (argLines label function index first depth es) ++ rest =
      flow front (argLines label function index first' depth es') ++ rest' →
    upperCallsAll es = upperCallsAll es' ∧ rest = rest'

variable {label}

theorem ToldByLines.append {e e' : Expr} (h : e.ToldByLines label) (h' : e'.Canonical)
    {first first' depth : Nat} {front rest rest' : List Char} {ls ms : List String}
    (hrest : AtLineEnd rest) (hrest' : AtLineEnd rest')
    (heq : flow front (e.lines label first depth ++ ls) ++ rest =
      flow front (e'.lines label first' depth ++ ms) ++ rest') :
    e.upperCalls = e'.upperCalls ∧ flow front ls ++ rest = flow front ms ++ rest' := by
  rw [flow_append, flow_append, List.append_assoc, List.append_assoc] at heq
  exact h h' (atLineEnd_flow ls hrest) (atLineEnd_flow ms hrest') heq

theorem singleLine_closing : SingleLine ")".toList :=
  singleLine_of_all rfl

theorem toldByLines_of_isLeaf {e : Expr} (h : e.Canonical) (hleaf : e.isLeaf = true) :
    e.ToldByLines label := by
  intro e' first first' depth front rest rest' h' hrest hrest' heq
  obtain ⟨hheadline, hleaf', htail⟩ := headline_eq_of_flow label h h' hrest hrest' heq
  rw [hleaf] at hleaf'
  rw [headline_of_isLeaf hleaf, headline_of_isLeaf hleaf'.symm] at hheadline
  rw [tail_lines_of_isLeaf label hleaf, tail_lines_of_isLeaf label hleaf'.symm] at htail
  have hsame : e = e' := Formula.eq_of_oneLine h h' hheadline
  exact ⟨congrArg upperCalls hsame, htail⟩

theorem toldByLines_paren {inner : Expr} (h : (paren inner).Canonical)
    (hinner : inner.ToldByLines label) : (paren inner).ToldByLines label := by
  intro e' first first' depth front rest rest' h' hrest hrest' heq
  obtain ⟨hheadline, hleaf, htail⟩ := headline_eq_of_flow label h h' hrest hrest' heq
  cases e' with
  | paren inner' =>
    obtain ⟨hsame, hclosing⟩ := hinner.append h'.paren hrest hrest' htail
    have ⟨_, hrests⟩ :=
      flow_indented_inj singleLine_closing singleLine_closing hrest hrest' hclosing
    exact ⟨by rw [upperCalls, upperCalls, hsame], hrests⟩
  | binary left o right =>
    -- The parentheses end where the operator would stand.
    rw [lines_binary, List.tail_cons] at htail
    obtain ⟨-, hclosing⟩ := hinner.append h'.left hrest hrest' htail
    exact absurd hclosing flow_closing_ne_deeper
  | call f args => exact absurd hheadline.symm (headline_call_ne (h'.spelled _ List.mem_cons_self))
  | number _ | string _ | name _ | unary _ _ => exact absurd hleaf (by simp [isLeaf])

theorem toldByLines_binary {left right : Expr} {o : BinaryOp} (h : (binary left o right).Canonical)
    (hleft : left.ToldByLines label) (hright : right.ToldByLines label) :
    (binary left o right).ToldByLines label := by
  intro e' first first' depth front rest rest' h' hrest hrest' heq
  obtain ⟨hheadline, hleaf, htail⟩ := headline_eq_of_flow label h h' hrest hrest' heq
  rw [lines_binary, List.tail_cons] at htail
  cases e' with
  | paren inner =>
    obtain ⟨-, hclosing⟩ := hleft.append h'.paren hrest hrest' htail
    exact absurd hclosing.symm flow_closing_ne_deeper
  | binary left' o' right' =>
    rw [lines_binary, List.tail_cons] at htail
    obtain ⟨hsameLeft, hmiddle⟩ := hleft.append h'.left hrest hrest' htail
    obtain ⟨hsymbol, hbehind⟩ :=
      flow_indented_inj (singleLine_symbol o) (singleLine_symbol o') hrest hrest' hmiddle
    obtain ⟨hsameRight, hclosing⟩ := hright.append h'.right hrest hrest' hbehind
    have ⟨_, hrests⟩ :=
      flow_indented_inj singleLine_closing singleLine_closing hrest hrest' hclosing
    refine ⟨?_, hrests⟩
    rw [upperCalls, upperCalls, hsameLeft, hsameRight, BinaryOp.symbol_injective hsymbol]
  | call f args => exact absurd hheadline.symm (headline_call_ne (h'.spelled _ List.mem_cons_self))
  | number _ | string _ | name _ | unary _ _ => exact absurd hleaf (by simp [isLeaf])

theorem toldByLines_call {f : String} {args : List Expr} (h : (call f args).Canonical)
    (hargs : ToldByRows label args) : (call f args).ToldByLines label := by
  intro e' first first' depth front rest rest' h' hrest hrest' heq
  obtain ⟨hheadline, hleaf, htail⟩ := headline_eq_of_flow label h h' hrest hrest' heq
  have hf : (Token.name f).Spelled := h.spelled _ List.mem_cons_self
  cases e' with
  | call f' args' =>
    have hf' : (Token.name f').Spelled := h'.spelled _ List.mem_cons_self
    have hname : Text.upperCase f = Text.upperCase f' := by
      have hchars := congrArg String.toList hheadline
      simp only [headline, String.toList_append] at hchars
      exact String.toList_inj.mp (List.append_cancel_right hchars)
    -- The names agree, so the rows of both have the labels of one function.
    have hrows : flow front (argLines label (Text.upperCase f) 0 (first + 1) depth args) ++ rest =
        flow front (argLines label (Text.upperCase f) 0 (first' + 1) depth args') ++ rest' := by
      conv_rhs => rw [hname]
      exact htail
    obtain ⟨hsame, hrests⟩ := hargs h'.args hrest hrest' hrows
    rw [Token.upperCase_eq_toUpper hf, Token.upperCase_eq_toUpper hf'] at hname
    exact ⟨by rw [upperCalls, upperCalls, hname, hsame], hrests⟩
  | paren _ | binary _ _ _ => exact absurd hheadline (headline_call_ne hf)
  | number _ | string _ | name _ | unary _ _ => exact absurd hleaf (by simp [isLeaf])

/-- A row shows the headline of its value behind the label. -/
theorem argLines_cons_of_spelled {e : Expr} (h : ∀ t ∈ e.tokens, t.Spelled) (es : List Expr)
    (function : String) (index first depth : Nat) :
    argLines label function index first depth (e :: es) =
      ((rowStart depth (label function index) ++ e.headline) ::
        (e.lines label first (depth + 1)).tail.map (rowStart depth "" ++ ·)) ++
          argLines label function (index + 1) (first + e.blockCount) depth es := by
  have hrow := Outline.rowLines_lines (e.solid_ofExpr label first h) (fun _ => true) depth
    (label function index)
  have hheadline : (Block.ofExpr label first e).headline (fun _ => true) = e.headline := by
    cases e <;> rfl
  rw [hheadline] at hrow
  rw [argLines_cons, lines, hrow]

theorem toldByRows_nil : ToldByRows label [] := by
  intro es' function index first first' depth front rest rest' h' hrest hrest' heq
  cases es' with
  | nil =>
    have ⟨_, hrests⟩ := flow_indented_inj singleLine_closing singleLine_closing hrest hrest' heq
    exact ⟨rfl, hrests⟩
  | cons e' es' =>
    -- The call ends where a row would start.
    rw [List.forall_mem_cons] at h'
    rw [argLines_cons_of_spelled h'.1.spelled] at heq
    exact absurd heq flow_closing_ne_row

theorem toldByRows_cons {e : Expr} {es : List Expr} (h : e.Canonical) (he : e.ToldByLines label)
    (hes : ToldByRows label es) : ToldByRows label (e :: es) := by
  intro es' function index first first' depth front rest rest' h' hrest hrest' heq
  rw [argLines_cons_of_spelled h.spelled] at heq
  cases es' with
  | nil => exact absurd heq.symm flow_closing_ne_row
  | cons e' es' =>
    rw [List.forall_mem_cons] at h'
    rw [argLines_cons_of_spelled h'.1.spelled, flow_append, flow_append, List.append_assoc,
      List.append_assoc] at heq
    -- The labels go away here: the same function and index give the same label.
    have hvalue := Outline.flow_row_inj heq
    rw [← lines_eq, ← lines_eq] at hvalue
    obtain ⟨hsame, hfurther⟩ := he h'.1 (atLineEnd_flow _ hrest) (atLineEnd_flow _ hrest') hvalue
    obtain ⟨hsames, hrests⟩ := hes h'.2 hrest hrest' hfurther
    exact ⟨by rw [upperCallsAll, upperCallsAll, hsame, hsames], hrests⟩

mutual

theorem toldByLines : (e : Expr) → e.Canonical → e.ToldByLines label
  | .number _, h | .string _, h | .name _, h | .unary _ _, h => toldByLines_of_isLeaf h rfl
  | .binary left _ right, h =>
    toldByLines_binary h (toldByLines left h.left) (toldByLines right h.right)
  | .paren inner, h => toldByLines_paren h (toldByLines inner h.paren)
  | .call _ args, h => toldByLines_call h (toldByRows args h.args)

theorem toldByRows : (es : List Expr) → (∀ e ∈ es, e.Canonical) → ToldByRows label es
  | [], _ => toldByRows_nil
  | e :: es, h => by
    rw [List.forall_mem_cons] at h
    exact toldByRows_cons h.1 (toldByLines e h.1) (toldByRows es h.2)

end

/-! ## The letter case of calls does not show -/

mutual

theorem lines_upperCalls : (e : Expr) → (first first' depth : Nat) →
    e.upperCalls.lines label first depth = e.lines label first' depth
  | .number _, _, _, _ | .string _, _, _, _ | .name _, _, _, _ | .unary _ _, _, _, _ => rfl
  | .binary left o right, first, first', depth => by
    rw [upperCalls, lines_binary, lines_binary, lines_upperCalls left first first',
      lines_upperCalls right _ (first' + left.blockCount)]
  | .paren inner, first, first', depth => by
    rw [upperCalls, lines_paren, lines_paren, lines_upperCalls inner first first']
  | .call f args, first, first', depth => by
    have hname : Text.upperCase f.toUpper = Text.upperCase f := Text.upperCase_toUpper f
    rw [upperCalls, lines_call, lines_call, hname, argLines_upperCalls args _ 0 _ (first' + 1)]

theorem argLines_upperCalls : (es : List Expr) → (function : String) →
    (index first first' depth : Nat) →
    argLines label function index first depth (upperCallsAll es) =
      argLines label function index first' depth es
  | [], _, _, _, _, _ => rfl
  | e :: es, function, index, first, first', depth => by
    rw [upperCallsAll, argLines_cons, argLines_cons, lines_upperCalls e first first',
      argLines_upperCalls es function _ _ (first' + e.blockCount)]

end

end Expr

namespace Outline

variable {settings : Settings} {header : String}

/-- The text of an outline as it is made has all the lines of the expression. -/
theorem text_ofExpr (e : Expr) :
    (ofExpr settings header e).text = "\n".intercalate (e.lines settings.label 0 0) := by
  have hopen := isOpen_ofExpr settings header e
  have hheader : (ofExpr settings header e).headerVisible = false := by
    rw [headerVisible, hopen]
    cases e <;> rfl
  rw [text_eq_intercalate, lines, hheader, hopen]
  rfl

/-- Two expressions have the same text exactly if they differ in the letter case of blocks only. -/
theorem text_ofExpr_eq_iff {header' : String} {e e' : Expr} (h : e.Canonical) (h' : e'.Canonical) :
    (ofExpr settings header e).text = (ofExpr settings header' e').text ↔
      e.upperCalls = e'.upperCalls := by
  have hflow (e : Expr) : '\n' :: (ofExpr settings header e).text.toList =
      flow [] (e.lines settings.label 0 0) := by
    rw [text_ofExpr, e.lines_eq, newline_cons_intercalate]
  rw [text_ofExpr, text_ofExpr]
  constructor
  · intro heq
    have hflows : flow [] (e.lines settings.label 0 0) ++ [] =
        flow [] (e'.lines settings.label 0 0) ++ [] := by
      rw [← hflow, ← hflow, text_ofExpr, text_ofExpr, heq]
    exact (e.toldByLines h h' (by simp [Text.AtLineEnd]) (by simp [Text.AtLineEnd]) hflows).1
  · intro heq
    rw [← e.lines_upperCalls 0 0 0, ← e'.lines_upperCalls 0 0 0, heq]

end Outline

namespace Formula

theorem exists_tree {settings : Settings} {source text : String}
    (h : tree settings source = .ok text) :
    ∃ e, parse source = .ok e ∧
      text = (Outline.ofExpr settings (Text.trim source) e).text := by
  obtain ⟨o, hsource, htext⟩ := exists_of_map_eq_ok h
  obtain ⟨e, hparse, rfl⟩ := Outline.exists_ofSource hsource
  exact ⟨e, hparse, htext⟩

/-- The text of a formula's tree tells the formula, up to the letter case of the calls in it. -/
theorem tree_determines {settings : Settings} {source source' text text' : String}
    (h : tree settings source = .ok text) (h' : tree settings source' = .ok text') :
    ∃ e e', parse source = .ok e ∧ parse source' = .ok e' ∧
      (text = text' ↔ e.upperCalls = e'.upperCalls) := by
  obtain ⟨e, hparse, rfl⟩ := exists_tree h
  obtain ⟨e', hparse', rfl⟩ := exists_tree h'
  refine ⟨e, e', hparse, hparse', ?_⟩
  exact Outline.text_ofExpr_eq_iff (canonical_of_parse hparse) (canonical_of_parse hparse')

/-- Two spellings of one formula, with a string that looks like the end of the call. -/
theorem tree_determines_of_sum :
    let source := "=sum(-a(1), \"\n| )\")"
    let source' := " SUM(-a( 1 ),\"\n| )\")"
    let text := "SUM(\n| arg1            -a(1)\n| arg2            \"\n| )\"\n)"
    tree { locale := .en } source = .ok text ∧ tree { locale := .en } source' = .ok text ∧
      ∃ e e', parse source = .ok e ∧ parse source' = .ok e' ∧
        (text = text ↔ e.upperCalls = e'.upperCalls) := by
  intro source source' text
  have h : tree { locale := .en } source = .ok text := by cbv
  have h' : tree { locale := .en } source' = .ok text := by cbv
  exact ⟨h, h', tree_determines h h'⟩

end Formula

end FormulaTree
