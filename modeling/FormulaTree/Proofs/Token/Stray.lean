import FormulaTree.Proofs.Token.Spacing

/-!
# The character in the way

Every text can be read to its end if characters that start no token are passed over. Scanning does
not pass over them: it fails exactly when there is one, and reports the first. What stands in front
of it could be scanned alone.
-/

namespace FormulaTree

namespace Token

/-- The characters of symbols, and the quote that starts a string. -/
def symbolChars : List Char :=
  [',', '(', ')', '+', '-', '*', '/', '^', ':', '=', '<', '>', '"']

/-- Whether a token can start with `c` when the characters `more` follow. -/
def CanStart (c : Char) (more : List Char) : Prop :=
  c ∈ symbolChars ∨ (c.isDigit = true ∨ c = '.' ∧ ∃ d ∈ more.head?, d.isDigit = true) ∨
    startsName c = true

theorem startsNumber_iff {c : Char} {more : List Char} :
    startsNumber c more = true ↔
      c.isDigit = true ∨ c = '.' ∧ ∃ d ∈ more.head?, d.isDigit = true := by
  simp only [startsNumber, Bool.or_eq_true, Bool.and_eq_true, decide_eq_true_eq, Option.any_eq_true,
    Option.mem_def]

theorem isSome_munch?_iff {c : Char} {more : List Char} :
    (munch? c more).isSome = true ↔ CanStart c more := by
  unfold munch?
  split
  case h_1 | h_2 | h_3 | h_4 | h_5 | h_6 | h_7 | h_8 | h_9 | h_13 =>
    exact ⟨fun _ => Or.inl (by decide), fun _ => rfl⟩
  case h_10 | h_11 | h_12 =>
    refine ⟨fun _ => Or.inl (by decide), fun _ => ?_⟩
    split_ifs <;> rfl
  -- Beside the symbols and the quote there are numbers and names.
  case h_14 =>
    have hsymbol : c ∉ symbolChars := by
      simp only [symbolChars, List.mem_cons, List.not_mem_nil, or_false]
      tauto
    have hiff : CanStart c more ↔ startsNumber c more = true ∨ startsName c = true := by
      simp only [CanStart, hsymbol, startsNumber_iff, false_or]
    rw [hiff]
    split_ifs <;> simp [*]

theorem munch?_eq_none_iff {c : Char} {more : List Char} :
    munch? c more = none ↔ ¬CanStart c more := by
  rw [← isSome_munch?_iff, Bool.not_eq_true, Option.isSome_eq_false_iff, Option.isNone_iff_eq_none]

/-- What follows a token may end earlier. -/
theorem Written.of_append {t : Token} {lexeme more rest : List Char}
    (h : t.Written lexeme (more ++ rest)) : t.Written lexeme more := by
  generalize hfollow : more ++ rest = follow at h
  cases h with
  | whole spelled stops =>
    refine .whole spelled fun c hc => stops c ?_
    obtain ⟨more, rfl⟩ := List.head?_eq_some_iff.mp hc
    rw [← hfollow]
    rfl
  | unclosed quoteless =>
    rw [(List.append_eq_nil_iff.mp hfollow).1]
    exact .unclosed quoteless

/-- Only at the end of a text a token may be written otherwise than in full. -/
theorem Written.lexeme_eq {t : Token} {lexeme more : List Char} (h : t.Written lexeme more)
    (hmore : more ≠ []) : lexeme = t.lexeme := by
  cases h with
  | whole => rfl
  | unclosed => exact absurd rfl hmore

end Token

namespace Piece

theorem Fit.of_rest {xs : List Piece} {more rest : List Char} (h : Fit xs (more ++ rest)) :
    Fit xs more := by
  induction xs with
  | nil => trivial
  | cons x xs ih =>
    obtain ⟨hgap, hwritten, hfit⟩ := h
    rw [← List.append_assoc] at hwritten
    exact ⟨hgap, hwritten.of_append, ih hfit⟩

theorem Fit.lexeme_eq {xs : List Piece} {rest : List Char} (h : Fit xs rest) (hrest : rest ≠ []) :
    ∀ x ∈ xs, x.lexeme = x.token.lexeme := by
  intro x hx
  obtain ⟨before, after, rfl⟩ := List.append_of_mem hx
  exact h.at.2.lexeme_eq fun hnil => hrest (List.append_eq_nil_iff.mp hnil).2

end Piece

/-! ## Texts with strays -/

/-- What a text consists of. -/
inductive Item where
  /-- A character that may stand between tokens. -/
  | gap (c : Char)
  | token (t : Token) (lexeme : List Char)
  /-- A character that starts no token. -/
  | stray (c : Char)

namespace Item

def chars : Item → List Char
  | gap c | stray c => [c]
  | token _ lexeme => lexeme

/-- The characters of a row of items. -/
def text (xs : List Item) : List Char :=
  xs.flatMap chars

def isStray : Item → Bool
  | stray _ => true
  | _ => false

/-- Whether an item is rightly told apart from the characters `more` behind it. -/
def Fits (more : List Char) : Item → Prop
  | gap c => Token.isGap c = true
  | token t lexeme => t.Written lexeme more
  | stray c => Token.isGap c = false ∧ ¬Token.CanStart c more

/-- Whether all items are rightly told apart. -/
def Told : List Item → Prop
  | [] => True
  | x :: xs => x.Fits (text xs) ∧ Told xs

theorem text_cons (x : Item) (xs : List Item) : text (x :: xs) = x.chars ++ text xs :=
  List.flatMap_cons

theorem text_append (xs ys : List Item) : text (xs ++ ys) = text xs ++ text ys :=
  List.flatMap_append

theorem Told.of_append {xs ys : List Item} (h : Told (xs ++ ys)) : Told ys := by
  induction xs with
  | nil => exact h
  | cons x xs ih => exact ih h.2

/-- Items without a stray among them are the pieces of their tokens and a gap. -/
theorem exists_pieces {before after : List Item} (h : Told (before ++ after))
    (hbefore : ∀ x ∈ before, x.isStray = false) :
    ∃ xs gap, text before = Piece.text xs ++ gap ∧ Piece.Fit xs (gap ++ text after) ∧
      ∀ c ∈ gap, Token.isGap c = true := by
  induction before with
  | nil => exact ⟨[], [], rfl, trivial, by simp⟩
  | cons x before ih =>
    rw [List.forall_mem_cons] at hbefore
    obtain ⟨hx, hbefore⟩ := hbefore
    obtain ⟨hfits, htold⟩ := h
    obtain ⟨xs, gap, htext, hfit, hgap⟩ := ih htold hbefore
    rw [text_cons, htext]
    cases x with
    | stray c => exact absurd hx (by simp [isStray])
    | token t lexeme =>
      refine ⟨⟨[], t, lexeme⟩ :: xs, gap, ?_, ⟨by simp, ?_, hfit⟩, hgap⟩
      · rw [Piece.text_cons, List.append_assoc]
        rfl
      · rw [← List.append_assoc, ← htext, ← text_append]
        exact hfits
    | gap c =>
      -- The character joins the gap of the first piece, or the gap at the end.
      cases xs with
      | nil => exact ⟨[], c :: gap, rfl, trivial, List.forall_mem_cons.mpr ⟨hfits, hgap⟩⟩
      | cons y ys =>
        have hy : ∀ d ∈ c :: y.gap, Token.isGap d = true :=
          List.forall_mem_cons.mpr ⟨hfits, hfit.1⟩
        exact ⟨⟨c :: y.gap, y.token, y.lexeme⟩ :: ys, gap, rfl, ⟨hy, hfit.2⟩, hgap⟩

end Item

/-- A formula told apart to its end: blanks, the mark, items, and blanks. -/
structure Reading (source : List Char) where
  blanks : List Char
  mark : List Char
  items : List Item
  trailing : List Char
  source_eq : source = blanks ++ mark ++ Item.text items ++ trailing
  isBlank : ∀ c ∈ blanks ++ trailing, Text.isBlank c = true
  stops : ∀ c ∈ (mark ++ Item.text items).head?, Text.isBlank c = false
  isMark : Scanner.IsMark mark (Item.text items)
  endsSolid : Text.EndsSolid (blanks ++ mark ++ Item.text items)
  told : Item.Told items

namespace Reading

variable {source : List Char} {front : List Char} {c : Char}

theorem text_eq (r : Reading source) :
    Text.dropBlanksRight source = r.blanks ++ (r.mark ++ Item.text r.items) := by
  conv_lhs => rw [r.source_eq]
  rw [Text.dropBlanksRight_append _ fun c hc => r.isBlank c (List.mem_append_right _ hc),
    Text.dropBlanksRight_of_endsSolid r.endsSolid, List.append_assoc]

/-- Scanning takes the tokens in front of the first stray. -/
theorem exists_pieces (r : Reading source) {before after : List Item}
    (hitems : r.items = before ++ after) (hbefore : ∀ x ∈ before, x.isStray = false) :
    ∃ xs gap, Item.text before = Piece.text xs ++ gap ∧ Piece.Fit xs (gap ++ Item.text after) ∧
      (∀ c ∈ gap, Token.isGap c = true) ∧
      (Scanner.ofString (String.ofList source)).run =
        Scanner.scan (Piece.placed (.behind (r.blanks ++ r.mark)) xs).reverse
          (.behind (r.blanks ++ r.mark ++ Item.text before)) (Item.text after) := by
  have htold := r.told
  rw [hitems] at htold
  obtain ⟨xs, gap, htext, hfit, hgap⟩ := Item.exists_pieces htold hbefore
  refine ⟨xs, gap, htext, hfit, hgap, ?_⟩
  have hlead := Scanner.lead_append .start
    (fun c hc => r.isBlank c (List.mem_append_left _ hc)) r.stops r.isMark
  have hbody : Item.text r.items = Piece.text xs ++ (gap ++ Item.text after) := by
    rw [hitems, Item.text_append, htext, List.append_assoc]
  rw [Scanner.run, Scanner.ofString, String.toList_ofList, r.text_eq, hlead, hbody,
    Scanner.scan_pieces _ _ hfit, Scanner.scan_gap _ _ _ hgap, List.append_nil, htext,
    ← Position.after_append, ← Position.after_append, Position.after_start, Position.after_start,
    List.append_assoc]

theorem endsSolid_mark (r : Reading source) : Text.EndsSolid r.mark := by
  rcases r.isMark with hmark | ⟨hmark, -⟩
  · rw [hmark]
    exact Text.endsSolid_concat [] rfl
  · rw [hmark]
    exact fun c hc => absurd hc (by simp)

/-- What stands in front of a stray is read alone as it is read there. -/
theorem exists_tokens_front (r : Reading source) {before after : List Item} {xs : List Piece}
    {gap : List Char} (hitems : r.items = before ++ after) (hafter : Item.text after ≠ [])
    (htext : Item.text before = Piece.text xs ++ gap)
    (hfit : Piece.Fit xs (gap ++ Item.text after)) (hgap : ∀ c ∈ gap, Token.isGap c = true) :
    ∃ last, Scanner.tokens (String.ofList (r.blanks ++ r.mark ++ Item.text before)) =
      .ok (Piece.placed (.behind (r.blanks ++ r.mark)) xs ++ [⟨.ending, last⟩]) := by
  have hblanks : ∀ c ∈ r.blanks, Text.isBlank c = true := fun c hc =>
    r.isBlank c (List.mem_append_left _ hc)
  have hgaps : ∀ c ∈ gap, Text.isBlank c = true := fun c hc => Text.isBlank_of_isGap (hgap c hc)
  have hbody : Item.text r.items = Piece.text xs ++ (gap ++ Item.text after) := by
    rw [hitems, Item.text_append, htext, List.append_assoc]
  have hfits : Piece.Fit xs [] := Piece.Fit.of_rest hfit
  rw [htext, ← List.append_assoc]
  by_cases hnil : r.mark ++ Piece.text xs = []
  -- Nothing but blanks: there is no token.
  · obtain ⟨hmark, hpieces⟩ := List.append_eq_nil_iff.mp hnil
    obtain rfl : xs = [] := hfits.eq_nil_of_text hpieces
    have hcut : Scanner.Cut (String.ofList (r.blanks ++ r.mark ++ Piece.text [] ++ gap)).toList
        [] [] [] := by
      refine ⟨?_, by simp, by simp, Or.inr ⟨rfl, by simp⟩, trivial⟩
      rw [String.toList_ofList, hmark, Piece.text_nil, List.append_nil, List.append_nil]
      exact Text.dropBlanksRight_of_blank (List.forall_mem_append.mpr ⟨hblanks, hgaps⟩)
    exact ⟨_, hcut.tokens_eq⟩
  · have hsolid : Text.EndsSolid (r.mark ++ Piece.text xs) :=
      Piece.endsSolid_append_text r.endsSolid_mark fun x hx =>
        ⟨(hfit.mem hx).2, hfit.lexeme_eq (by simp [hafter]) x hx⟩
    have hcut : Scanner.Cut (String.ofList (r.blanks ++ r.mark ++ Piece.text xs ++ gap)).toList
        r.blanks r.mark xs := by
      refine ⟨?_, hblanks, fun d hd => r.stops d ?_, ?_, hfits⟩
      · rw [String.toList_ofList, Text.dropBlanksRight_append _ hgaps, List.append_assoc]
        exact Text.dropBlanksRight_of_endsSolid (hsolid.append_left hnil r.blanks)
      · rw [hbody, ← List.append_assoc, List.head?_append, Option.mem_def.mp hd]
        rfl
      · refine r.isMark.imp_right fun hmark => ⟨hmark.1, fun hhead => hmark.2 ?_⟩
        rw [hbody, List.head?_append, hhead]
        rfl
    exact ⟨_, hcut.tokens_eq⟩

/-- Scanning stops at the first stray. -/
theorem exists_stop (r : Reading source) {before after : List Item}
    (hitems : r.items = before ++ .stray c :: after) (hbefore : ∀ x ∈ before, x.isStray = false) :
    let front := r.blanks ++ r.mark ++ Item.text before
    Scanner.tokens (String.ofList source) = .error ⟨c, .behind front⟩ ∧
      ∃ taken last,
        (Scanner.ofString (String.ofList source)).run =
          Scanner.scan taken.reverse (.behind front) (c :: Item.text after) ∧
        Scanner.tokens (String.ofList front) = .ok (taken ++ [⟨.ending, last⟩]) := by
  intro front
  obtain ⟨xs, gap, htext, hfit, hgap, hrun⟩ := r.exists_pieces hitems hbefore
  have hstuck : Scanner.Stuck (c :: Item.text after) := by
    have htold := r.told
    rw [hitems] at htold
    obtain ⟨hnogap, hstart⟩ := htold.of_append.1
    intro d ds hd
    cases hd
    exact ⟨hnogap, Token.munch?_eq_none_iff.mpr hstart⟩
  obtain ⟨last, hfront⟩ := r.exists_tokens_front hitems (List.cons_ne_nil _ _) htext hfit hgap
  refine ⟨?_, _, last, hrun, hfront⟩
  rw [Scanner.tokens, hrun]
  exact congrArg Scanner.Scan.result (Scanner.scan_stuck _ _ hstuck)

end Reading

namespace Scanner

/-- A blank that is no gap, behind a string that may hold anything. -/
example : tokens " =\"#\"\n\u00a0.5" = .error ⟨'\u00a0', ⟨2, 1⟩⟩ := by
  cbv

/-- A dot in front of the blanks at the end. -/
example : tokens "1. + .\t" = .error ⟨'.', ⟨1, 6⟩⟩ := by
  cbv

end Scanner

end FormulaTree
