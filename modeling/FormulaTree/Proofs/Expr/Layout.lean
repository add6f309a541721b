import FormulaTree.Expr.OneLine
import FormulaTree.Proofs.Expr.Grammar
import FormulaTree.Proofs.Token.Partition

/-!
# The one-line form in pieces

The one-line form of an expression is a row of pieces, one for each of its tokens. When every token
is one that can be read, the pieces are cut where the scanner cuts them: behind a name, a number or
an operator stands a space, a comma or a closing parenthesis, and none of these continues it.
-/

namespace FormulaTree

/-- A token as it is written in full, behind a gap. -/
def Piece.whole (gap : List Char) (t : Token) : Piece :=
  ⟨gap, t, t.lexeme⟩

theorem Piece.Fit.append {xs ys : List Piece} {rest : List Char} (hx : Fit xs (text ys ++ rest))
    (hy : Fit ys rest) : Fit (xs ++ ys) rest := by
  induction xs with
  | nil => exact hy
  | cons x xs ih =>
    obtain ⟨hgap, hwritten, hfit⟩ := hx
    rw [← List.append_assoc, ← text_append] at hwritten
    exact ⟨hgap, hwritten, ih hfit⟩

theorem Piece.Fit.whole_cons {gap : List Char} {t : Token} {xs : List Piece} {rest : List Char}
    (hgap : ∀ c ∈ gap, Token.isGap c = true) (hspelled : t.Spelled)
    (hstops : ∀ c ∈ (text xs ++ rest).head?, t.continuedBy c = false) (hfit : Fit xs rest) :
    Fit (.whole gap t :: xs) rest :=
  ⟨hgap, .whole hspelled hstops, hfit⟩

theorem Token.isGap_of_mem_space : ∀ c ∈ [' '], isGap c = true := by
  intro c hc
  rw [List.mem_singleton.mp hc]
  rfl

/-- What stands behind an expression in a one-line form. -/
def Token.delimits (c : Char) : Bool :=
  c = ' ' || c = ',' || c = ')'

theorem Token.continuedBy_of_delimits (t : Token) {c : Char} (h : delimits c = true) :
    t.continuedBy c = false := by
  simp only [delimits, Bool.or_eq_true, decide_eq_true_eq] at h
  cases t with
  | op o => rcases h with (rfl | rfl) | rfl <;> cases o <;> rfl
  | _ => rcases h with (rfl | rfl) | rfl <;> rfl

namespace Expr

mutual

/-- The pieces of the one-line form, the first of them behind `gap`. -/
def pieces (gap : List Char) : Expr → List Piece
  | number text => [.whole gap (.number text)]
  | string contents => [.whole gap (.string contents)]
  | name text => [.whole gap (.name text)]
  | unary sign operand => .whole gap sign.token :: operand.pieces []
  | binary left o right => left.pieces gap ++ .whole [' '] (.op o) :: right.pieces [' ']
  | paren inner => .whole gap .leftParen :: (inner.pieces [] ++ [.whole [] .rightParen])
  | call f args =>
    .whole gap (.name f) :: .whole [] .leftParen :: (argPieces args ++ [.whole [] .rightParen])

/-- The pieces of the arguments of a call. -/
def argPieces : List Expr → List Piece
  | [] => []
  | e :: es => e.pieces [] ++ furtherPieces es

/-- The pieces of further arguments, with a comma and a space before each. -/
def furtherPieces : List Expr → List Piece
  | [] => []
  | e :: es => .whole [] .comma :: (e.pieces [' '] ++ furtherPieces es)

end

/-! ## The pieces carry the tokens -/

mutual

theorem map_token_pieces (gap : List Char) :
    (e : Expr) → (e.pieces gap).map Piece.token = e.tokens
  | number text | string contents | name text => rfl
  | unary sign operand => by
    rw [pieces, tokens, List.map_cons, map_token_pieces]
    rfl
  | binary left o right => by
    rw [pieces, tokens, List.map_append, List.map_cons, map_token_pieces, map_token_pieces]
    rfl
  | paren inner => by
    rw [pieces, tokens, List.map_cons, List.map_append, map_token_pieces]
    rfl
  | call f args => by
    rw [pieces, tokens, List.map_cons, List.map_cons, List.map_append, map_token_argPieces]
    rfl

theorem map_token_argPieces : (es : List Expr) → (argPieces es).map Piece.token = argTokens es
  | [] => rfl
  | e :: es => by
    rw [argPieces, argTokens, List.map_append, map_token_pieces, map_token_furtherPieces]

theorem map_token_furtherPieces :
    (es : List Expr) → (furtherPieces es).map Piece.token = furtherTokens es
  | [] => rfl
  | e :: es => by
    rw [furtherPieces, furtherTokens, List.map_cons, List.map_append, map_token_pieces,
      map_token_furtherPieces]
    rfl

end

/-! ## The pieces are the one-line form -/

theorem toList_intercalate_cons (separator s : String) (ss : List String) :
    (separator.intercalate (s :: ss)).toList =
      s.toList ++ ss.flatMap fun t => separator.toList ++ t.toList := by
  induction ss generalizing s with
  | nil => rw [String.intercalate_singleton, List.flatMap_nil, List.append_nil]
  | cons t ss ih =>
    rw [String.intercalate_cons_cons, String.toList_append, String.toList_append, ih,
      List.flatMap_cons, List.append_assoc, List.append_assoc]

theorem lexeme_sign (s : Sign) : s.token.lexeme = s.symbol.toList := by
  cases s <;> rfl

mutual

theorem text_pieces (gap : List Char) :
    (e : Expr) → Piece.text (e.pieces gap) = gap ++ e.oneLine.toList
  | number text | name text => List.append_nil _
  | string contents => by
    simp only [pieces, Piece.text_cons, Piece.text_nil, Piece.chars, Piece.whole, Token.lexeme,
      oneLine, String.toList_append, List.append_nil]
    rfl
  | unary sign operand => by
    rw [pieces, Piece.text_cons, text_pieces, oneLine, String.toList_append, Piece.chars,
      Piece.whole, lexeme_sign, List.nil_append, List.append_assoc]
  | binary left o right => by
    simp only [pieces, Piece.text_append, Piece.text_cons, text_pieces, oneLine,
      String.toList_append, Piece.chars, Piece.whole, Token.lexeme, Token.text, List.append_assoc]
    rfl
  | paren inner => by
    simp only [pieces, Piece.text_cons, Piece.text_append, Piece.text_nil, text_pieces, oneLine,
      String.toList_append, Piece.chars, Piece.whole, List.nil_append, List.append_nil,
      List.append_assoc]
    rfl
  | call f args => by
    simp only [pieces, Piece.text_cons, Piece.text_append, Piece.text_nil, text_argPieces, oneLine,
      String.toList_append, Piece.chars, Piece.whole, List.nil_append, List.append_nil,
      List.append_assoc]
    rfl

theorem text_argPieces :
    (es : List Expr) → Piece.text (argPieces es) = (", ".intercalate (oneLines es)).toList
  | [] => by rw [argPieces, oneLines, String.intercalate_nil]; rfl
  | e :: es => by
    rw [argPieces, Piece.text_append, text_pieces, text_furtherPieces, List.nil_append, oneLines,
      toList_intercalate_cons]

theorem text_furtherPieces :
    (es : List Expr) → Piece.text (furtherPieces es) =
      (oneLines es).flatMap fun s => ", ".toList ++ s.toList
  | [] => rfl
  | e :: es => by
    rw [furtherPieces, Piece.text_cons, Piece.text_append, text_pieces, text_furtherPieces,
      oneLines, List.flatMap_cons, List.append_assoc, List.append_assoc]
    rfl

end

/-! ## The pieces are cut rightly -/

theorem delimits_of_head?_text_cons {c : Char} {cs rest : List Char} {x : Piece} {xs : List Piece}
    (hchars : x.chars = c :: cs) (hc : Token.delimits c = true) :
    ∀ d ∈ (Piece.text (x :: xs) ++ rest).head?, Token.delimits d = true := by
  intro d hd
  rw [Piece.text_cons, hchars] at hd
  cases hd
  exact hc

mutual

theorem fit_pieces {gap rest : List Char} (hgap : ∀ c ∈ gap, Token.isGap c = true)
    (hrest : ∀ c ∈ rest.head?, Token.delimits c = true) :
    (e : Expr) → (∀ t ∈ e.tokens, t.Spelled) → Piece.Fit (e.pieces gap) rest
  | number text | string contents | name text => fun hspelled =>
    .whole_cons hgap (hspelled _ List.mem_cons_self)
      (fun c hc => Token.continuedBy_of_delimits _ (hrest c hc)) trivial
  | unary sign operand => by
    intro hspelled
    rw [tokens, List.forall_mem_cons] at hspelled
    refine .whole_cons hgap hspelled.1 (fun c _ => ?_)
      (fit_pieces (by simp) hrest operand hspelled.2)
    cases sign <;> rfl
  | binary left o right => by
    intro hspelled
    rw [tokens, List.forall_mem_append, List.forall_mem_cons] at hspelled
    obtain ⟨hleft, ho, hright⟩ := hspelled
    -- A space stands behind the left operand, and another one behind the operator.
    refine .append (fit_pieces hgap (delimits_of_head?_text_cons rfl rfl) left hleft) ?_
    refine .whole_cons Token.isGap_of_mem_space ho (fun c hc => ?_)
      (fit_pieces Token.isGap_of_mem_space hrest right hright)
    rw [text_pieces] at hc
    cases hc
    exact Token.continuedBy_of_delimits _ rfl
  | paren inner => by
    intro hspelled
    rw [tokens, List.forall_mem_cons, List.forall_mem_append] at hspelled
    refine .whole_cons hgap trivial (fun _ _ => rfl) ?_
    refine .append (fit_pieces (by simp) (delimits_of_head?_text_cons rfl rfl) inner hspelled.2.1) ?_
    exact .whole_cons (by simp) trivial (fun _ _ => rfl) trivial
  | call f args => by
    intro hspelled
    rw [tokens, List.forall_mem_cons, List.forall_mem_cons, List.forall_mem_append] at hspelled
    -- The parenthesis stands right behind the name, and no name goes on with one.
    refine .whole_cons hgap hspelled.1 (fun c hc => ?_) ?_
    · cases hc
      rfl
    refine .whole_cons (by simp) trivial (fun _ _ => rfl) ?_
    refine .append (fit_argPieces (delimits_of_head?_text_cons rfl rfl) args hspelled.2.2.1) ?_
    exact .whole_cons (by simp) trivial (fun _ _ => rfl) trivial

theorem fit_argPieces {rest : List Char} (hrest : ∀ c ∈ rest.head?, Token.delimits c = true) :
    (es : List Expr) → (∀ t ∈ argTokens es, t.Spelled) → Piece.Fit (argPieces es) rest
  | [] => fun _ => trivial
  | e :: es => by
    intro hspelled
    rw [argTokens, List.forall_mem_append] at hspelled
    obtain ⟨hfit, hhead⟩ := fit_furtherPieces hrest es hspelled.2
    exact .append (fit_pieces (by simp) hhead e hspelled.1) hfit

-- What stands behind an argument is the comma of the next one, or what stands behind them all.
theorem fit_furtherPieces {rest : List Char}
    (hrest : ∀ c ∈ rest.head?, Token.delimits c = true) :
    (es : List Expr) → (∀ t ∈ furtherTokens es, t.Spelled) →
      Piece.Fit (furtherPieces es) rest ∧
        ∀ c ∈ (Piece.text (furtherPieces es) ++ rest).head?, Token.delimits c = true
  | [] => fun _ => ⟨trivial, hrest⟩
  | e :: es => by
    intro hspelled
    rw [furtherTokens, List.forall_mem_cons, List.forall_mem_append] at hspelled
    obtain ⟨hfit, hhead⟩ := fit_furtherPieces hrest es hspelled.2.2
    refine ⟨.whole_cons (by simp) trivial (fun _ _ => rfl) ?_, delimits_of_head?_text_cons rfl rfl⟩
    exact .append (fit_pieces Token.isGap_of_mem_space hhead e hspelled.2.1) hfit

end

end Expr

/-! ## The characters of names and numbers -/

namespace Token

theorem isNamePart_of_startsName {c : Char} (h : startsName c = true) : isNamePart c = true := by
  simp only [startsName, Bool.or_eq_true] at h
  simp only [isNamePart, Char.isAlphanum, Bool.or_eq_true]
  tauto

theorem forall_isNamePart {text : String} (h : (Token.name text).Spelled) :
    ∀ c ∈ text.toList, isNamePart c = true := by
  obtain ⟨c, cs, htext, hstart, hparts⟩ := h
  rw [htext]
  exact List.forall_mem_cons.mpr ⟨isNamePart_of_startsName hstart, hparts⟩

theorem forall_isNumberPart {text : String} (h : (Token.number text).Spelled) :
    ∀ c ∈ text.toList, isNumberPart c = true := by
  obtain ⟨c, cs, htext, hstart, hparts⟩ := h
  have hc : isNumberPart c = true := by
    simp only [startsNumber, Bool.or_eq_true, Bool.and_eq_true] at hstart
    simp only [isNumberPart, Bool.or_eq_true]
    tauto
  rw [htext]
  exact List.forall_mem_cons.mpr ⟨hc, hparts⟩

end Token

namespace Expr

/-! ## Both ends of the one-line form -/

theorem isBlank_of_isNamePart {c : Char} (h : Token.isNamePart c = true) :
    Text.isBlank c = false := by
  by_contra hblank
  simp only [Text.isBlank, Text.blankRanges, List.any_cons, List.any_nil, Bool.not_eq_false,
    Bool.or_eq_true, Bool.and_eq_true, decide_eq_true_eq, Bool.false_eq_true, or_false] at hblank
  simp only [Token.isNamePart, Char.isAlphanum, Char.isAlpha, Char.isUpper, Char.isLower,
    Char.isDigit, Bool.or_eq_true, Bool.and_eq_true, decide_eq_true_eq, ge_iff_le,
    UInt32.le_iff_toNat_le] at h
  -- Letters and digits lie in ranges of code points that hold no blank.
  rcases h with (h | rfl) | rfl
  · simp at h hblank
    omega
  · exact absurd hblank (by decide)
  · exact absurd hblank (by decide)

theorem isBlank_of_isNumberPart {c : Char} (h : Token.isNumberPart c = true) :
    Text.isBlank c = false := by
  simp only [Token.isNumberPart, Bool.or_eq_true, decide_eq_true_eq] at h
  rcases h with hdigit | rfl
  · apply isBlank_of_isNamePart
    simp only [Token.isNamePart, Char.isAlphanum, hdigit, Bool.or_true, Bool.true_or]
  · decide

/-- Whether a text is a word: it is not empty and has neither a blank nor an equals sign in it. -/
def IsWord (cs : List Char) : Prop :=
  cs ≠ [] ∧ ∀ c ∈ cs, Text.isBlank c = false ∧ c ≠ '='

theorem isWord_of_forall_mem {p : Char → Bool} {cs : List Char} (hne : cs ≠ [])
    (hparts : ∀ c ∈ cs, p c = true) (hblank : ∀ {c}, p c = true → Text.isBlank c = false)
    (hmark : p '=' = false) : IsWord cs := by
  refine ⟨hne, fun c hc => ⟨hblank (hparts c hc), ?_⟩⟩
  rintro rfl
  rw [hparts '=' hc] at hmark
  exact absurd hmark (by decide)

theorem isWord_name {text : String} (h : (Token.name text).Spelled) : IsWord text.toList := by
  have hparts := Token.forall_isNamePart h
  obtain ⟨c, cs, htext, -⟩ := h
  rw [htext] at hparts ⊢
  exact isWord_of_forall_mem (List.cons_ne_nil c cs) hparts isBlank_of_isNamePart (by decide)

theorem isWord_number {text : String} (h : (Token.number text).Spelled) : IsWord text.toList := by
  have hparts := Token.forall_isNumberPart h
  obtain ⟨c, cs, htext, -⟩ := h
  rw [htext] at hparts ⊢
  exact isWord_of_forall_mem (List.cons_ne_nil c cs) hparts isBlank_of_isNumberPart (by decide)

theorem IsWord.exists_first {cs : List Char} (h : IsWord cs) (more : List Char) :
    ∃ c ds, cs ++ more = c :: ds ∧ Text.isBlank c = false ∧ c ≠ '=' := by
  obtain ⟨c, ds, rfl⟩ := List.exists_cons_of_ne_nil h.1
  exact ⟨c, ds ++ more, rfl, h.2 c List.mem_cons_self⟩

theorem IsWord.endsSolid {cs : List Char} (h : IsWord cs) : Text.EndsSolid cs :=
  Text.endsSolid_of_forall_mem fun c hc => (h.2 c hc).1

/-- The first character of an expression is neither a blank nor the mark of a formula. -/
theorem exists_first : (e : Expr) → (∀ t ∈ e.tokens, t.Spelled) →
    ∃ c cs, e.oneLine.toList = c :: cs ∧ Text.isBlank c = false ∧ c ≠ '='
  | number text => by
    intro hspelled
    rw [oneLine, ← List.append_nil text.toList]
    exact (isWord_number (hspelled _ List.mem_cons_self)).exists_first []
  | name text => by
    intro hspelled
    rw [oneLine, ← List.append_nil text.toList]
    exact (isWord_name (hspelled _ List.mem_cons_self)).exists_first []
  | string contents => by
    intro _
    rw [oneLine, String.append_assoc, String.toList_append]
    exact ⟨'"', _, rfl, rfl, by decide⟩
  | unary sign operand => by
    intro _
    rw [oneLine, String.toList_append]
    cases sign with
    | plus => exact ⟨'+', operand.oneLine.toList, rfl, rfl, by decide⟩
    | minus => exact ⟨'-', operand.oneLine.toList, rfl, rfl, by decide⟩
  | binary left o right => by
    intro hspelled
    rw [tokens, List.forall_mem_append] at hspelled
    -- The operator stands behind, so the left operand has the first character.
    obtain ⟨c, cs, hleft, hc⟩ := exists_first left hspelled.1
    simp only [oneLine, String.toList_append, hleft, List.cons_append]
    exact ⟨c, _, rfl, hc⟩
  | paren inner => by
    intro _
    rw [oneLine, String.append_assoc, String.toList_append]
    exact ⟨'(', _, rfl, rfl, by decide⟩
  | call f args => by
    intro hspelled
    rw [oneLine, String.toList_append]
    exact (isWord_name (hspelled _ List.mem_cons_self)).exists_first _

theorem oneLine_ne_nil {e : Expr} (hspelled : ∀ t ∈ e.tokens, t.Spelled) :
    e.oneLine.toList ≠ [] := by
  obtain ⟨c, cs, hfirst, -⟩ := exists_first e hspelled
  rw [hfirst]
  exact List.cons_ne_nil c cs

theorem endsSolid_oneLine : (e : Expr) → (∀ t ∈ e.tokens, t.Spelled) →
    Text.EndsSolid e.oneLine.toList
  | number text => fun hspelled => (isWord_number (hspelled _ List.mem_cons_self)).endsSolid
  | name text => fun hspelled => (isWord_name (hspelled _ List.mem_cons_self)).endsSolid
  | string contents => by
    intro _
    rw [oneLine, String.toList_append]
    exact Text.endsSolid_concat _ rfl
  | unary sign operand => by
    intro hspelled
    rw [tokens, List.forall_mem_cons] at hspelled
    rw [oneLine, String.toList_append]
    apply (endsSolid_oneLine operand hspelled.2).append_left
    exact oneLine_ne_nil hspelled.2
  | binary left o right => by
    intro hspelled
    rw [tokens, List.forall_mem_append, List.forall_mem_cons] at hspelled
    rw [oneLine, String.toList_append]
    apply (endsSolid_oneLine right hspelled.2.2).append_left
    exact oneLine_ne_nil hspelled.2.2
  | paren inner => by
    intro _
    rw [oneLine, String.toList_append]
    exact Text.endsSolid_concat _ rfl
  | call f args => by
    intro _
    rw [oneLine, String.toList_append, String.toList_append, ← List.append_assoc]
    exact Text.endsSolid_concat _ rfl

end Expr

end FormulaTree
