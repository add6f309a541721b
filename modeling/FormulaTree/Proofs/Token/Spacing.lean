import FormulaTree.Proofs.Expr.Layout

/-!
# Tokens and the space between them

Tokens can be written down with any space around them and are read back as they were. Space is
needed only where two tokens would run together: between names and numbers, and where the second
one would make a longer operator of the first. A formula whose first token begins with `=` needs
the mark of a formula in front of it, which is dropped in reading.
-/

namespace FormulaTree

namespace Token

/-- Names and numbers go on as long as more of them follows. -/
def isWord : Token → Bool
  | name _ | number _ => true
  | _ => false

/-- Whether a token is the first half of a longer operator. -/
def startsDouble : Token → Bool
  | op .eq | op .lt | op .gt => true
  | _ => false

/-- Whether a token begins like the second half of a longer operator. -/
def beginsLikeHalf (t : Token) : Bool :=
  t.lexeme.head?.any fun c => c = '=' || c = '>'

/-- Whether two tokens can be told apart with nothing between them. -/
structure MayTouch (s t : Token) : Prop where
  words : ¬(s.isWord = true ∧ t.isWord = true)
  halves : ¬(s.startsDouble = true ∧ t.beginsLikeHalf = true)

theorem continuedBy_of_isGap (t : Token) {c : Char} (h : isGap c = true) :
    t.continuedBy c = false := by
  simp only [isGap, Bool.or_eq_true, decide_eq_true_eq] at h
  cases t with
  | op o => rcases h with ((rfl | rfl) | rfl) | rfl <;> cases o <;> rfl
  | _ => rcases h with ((rfl | rfl) | rfl) | rfl <;> rfl

/-- What is no word begins with no character of one. -/
theorem head?_lexeme_of_not_isWord {t : Token} (hspelled : t.Spelled) (hword : t.isWord = false) :
    ∀ c ∈ t.lexeme.head?, isNamePart c = false ∧ isNumberPart c = false := by
  intro c hc
  cases t with
  | name _ | number _ => exact absurd hword (by simp [isWord])
  | ending => exact absurd hspelled id
  | string _ => cases hc; decide
  | op o => cases o <;> cases hc <;> decide
  | doubleEquals | leftParen | rightParen | comma => cases hc; decide

theorem MayTouch.stops {s t : Token} (h : s.MayTouch t) (hspelled : t.Spelled) :
    ∀ c ∈ t.lexeme.head?, s.continuedBy c = false := by
  intro c hc
  have hword (hs : s.isWord = true) : t.isWord = false :=
    Bool.eq_false_iff.mpr fun ht => h.words ⟨hs, ht⟩
  have hhalf (hs : s.startsDouble = true) : (c = '=' || c = '>') = false := by
    by_contra hc'
    refine h.halves ⟨hs, ?_⟩
    rw [beginsLikeHalf, Option.mem_def.mp hc]
    exact Bool.not_eq_false _ ▸ hc'
  cases s with
  | name _ => exact (head?_lexeme_of_not_isWord hspelled (hword rfl) c hc).1
  | number _ => exact (head?_lexeme_of_not_isWord hspelled (hword rfl) c hc).2
  | op o =>
    cases o with
    | eq | gt => exact (Bool.or_eq_false_iff.mp (hhalf rfl)).1
    | lt => exact hhalf rfl
    | _ => rfl
  | _ => rfl

theorem Spelled.isWord_lexeme {t : Token} (h : t.Spelled) (hword : t.isWord = true) :
    Expr.IsWord t.lexeme := by
  cases t with
  | name text => exact Expr.isWord_name h
  | number text => exact Expr.isWord_number h
  | _ => exact absurd hword (by simp [isWord])

theorem Spelled.exists_cons {t : Token} (h : t.Spelled) :
    ∃ c cs, t.lexeme = c :: cs ∧ Text.isBlank c = false := by
  cases t with
  | name _ | number _ =>
    obtain ⟨c, cs, hfirst, hc, -⟩ := (h.isWord_lexeme rfl).exists_first []
    exact ⟨c, cs, by rw [← hfirst, List.append_nil], hc⟩
  | ending => exact absurd h id
  | string contents => exact ⟨'"', _, rfl, rfl⟩
  | op o => cases o <;> exact ⟨_, _, rfl, rfl⟩
  | doubleEquals | leftParen | rightParen | comma => exact ⟨_, _, rfl, rfl⟩

theorem Spelled.endsSolid {t : Token} (h : t.Spelled) : Text.EndsSolid t.lexeme := by
  cases t with
  | name _ | number _ => exact (h.isWord_lexeme rfl).endsSolid
  | ending => exact absurd h id
  | string contents => exact Text.endsSolid_concat _ rfl
  | op o => cases o <;> exact fun c hc => by cases hc; rfl
  | doubleEquals | leftParen | rightParen | comma => exact fun c hc => by cases hc; rfl

/-- Only the two signs that begin with it can be taken for the mark of a formula. -/
theorem head?_lexeme_ne_mark {t : Token} (hspelled : t.Spelled) (heq : t ≠ .op .eq)
    (hdouble : t ≠ .doubleEquals) : t.lexeme.head? ≠ some '=' := by
  cases t with
  | name _ | number _ =>
    obtain ⟨c, cs, hfirst, -, hc⟩ := (hspelled.isWord_lexeme rfl).exists_first []
    rw [List.append_nil] at hfirst
    rw [hfirst, List.head?_cons]
    exact fun hmark => hc (Option.some.inj hmark)
  | ending => exact absurd hspelled id
  | doubleEquals => exact absurd rfl hdouble
  | op o =>
    cases o with
    | eq => exact absurd rfl heq
    | _ => decide
  | string _ | leftParen | rightParen | comma => exact fun hmark => absurd hmark (by simp [lexeme, text])

end Token

/-- A text that ends with tokens written in full does not end with a blank. -/
theorem Piece.endsSolid_append_text {front : List Char} {xs : List Piece}
    (hfront : Text.EndsSolid front) (h : ∀ x ∈ xs, x.token.Spelled ∧ x.lexeme = x.token.lexeme) :
    Text.EndsSolid (front ++ text xs) := by
  induction xs generalizing front with
  | nil => rwa [text_nil, List.append_nil]
  | cons x xs ih =>
    rw [List.forall_mem_cons] at h
    obtain ⟨⟨hspelled, hlexeme⟩, hxs⟩ := h
    obtain ⟨c, cs, hcons, -⟩ := hspelled.exists_cons
    rw [text_cons, chars, hlexeme, ← List.append_assoc, ← List.append_assoc]
    refine ih ?_ hxs
    exact hspelled.endsSolid.append_left (by rw [hcons]; exact List.cons_ne_nil c cs) _

namespace Scanner

/-- Some tokens as they are written, each behind its gap. -/
def spaced (xs : List (List Char × Token)) : List Char :=
  xs.flatMap fun x => x.1 ++ x.2.lexeme

/-- Whether tokens are written so that each of them can be told from the next one. -/
structure Apart (xs : List (List Char × Token)) : Prop where
  isGap : ∀ x ∈ xs, ∀ c ∈ x.1, Token.isGap c = true
  spelled : ∀ x ∈ xs, x.2.Spelled
  mayTouch : xs.IsChain fun x y => y.1 = [] → x.2.MayTouch y.2

theorem spaced_cons (x : List Char × Token) (xs : List (List Char × Token)) :
    spaced (x :: xs) = x.1 ++ x.2.lexeme ++ spaced xs :=
  List.flatMap_cons

/-- The pieces of written tokens. -/
def piecesOf (xs : List (List Char × Token)) : List Piece :=
  xs.map fun x => .whole x.1 x.2

theorem text_piecesOf (xs : List (List Char × Token)) : Piece.text (piecesOf xs) = spaced xs := by
  rw [piecesOf, Piece.text, List.flatMap_map]
  rfl

theorem map_token_piecesOf (xs : List (List Char × Token)) :
    (piecesOf xs).map Piece.token = xs.map Prod.snd := by
  rw [piecesOf, List.map_map]
  rfl

variable {x y : List Char × Token} {xs : List (List Char × Token)}

theorem Apart.tail (h : Apart (x :: xs)) : Apart xs where
  isGap y hy := h.isGap y (List.mem_cons_of_mem x hy)
  spelled y hy := h.spelled y (List.mem_cons_of_mem x hy)
  mayTouch := h.mayTouch.tail

/-- The first token ends where it is written, whether a gap follows, a token or nothing. -/
theorem Apart.stops (h : Apart (x :: xs)) : ∀ c ∈ (spaced xs).head?, x.2.continuedBy c = false := by
  intro c hc
  cases xs with
  | nil => exact absurd hc (by simp [spaced])
  | cons y ys =>
    have hy : y.2.Spelled := h.spelled y (List.mem_cons_of_mem x List.mem_cons_self)
    have hgap := h.isGap y (List.mem_cons_of_mem x List.mem_cons_self)
    rw [spaced_cons] at hc
    cases hempty : y.1 with
    | nil =>
      have htouch : x.2.MayTouch y.2 := (List.isChain_cons_cons.mp h.mayTouch).1 hempty
      obtain ⟨d, ds, hlexeme, -⟩ := hy.exists_cons
      rw [hempty, hlexeme] at hc
      cases hc
      exact htouch.stops hy c (by rw [hlexeme]; rfl)
    | cons d ds =>
      rw [hempty] at hc hgap
      cases hc
      exact Token.continuedBy_of_isGap _ (hgap c List.mem_cons_self)

theorem Apart.fit (h : Apart xs) : Piece.Fit (piecesOf xs) [] := by
  induction xs with
  | nil => trivial
  | cons x xs ih =>
    refine .whole_cons (h.isGap x List.mem_cons_self) (h.spelled x List.mem_cons_self) ?_ (ih h.tail)
    intro c hc
    rw [List.append_nil] at hc
    exact h.stops c (text_piecesOf xs ▸ hc)

theorem Apart.endsSolid (h : Apart xs) {front : List Char} (hfront : Text.EndsSolid front) :
    Text.EndsSolid (front ++ spaced xs) := by
  rw [← text_piecesOf]
  refine Piece.endsSolid_append_text hfront fun p hp => ?_
  obtain ⟨x, hx, rfl⟩ := List.mem_map.mp hp
  exact ⟨h.spelled x hx, rfl⟩

/-- The gap of the first token may as well stand in front of all tokens. -/
theorem Apart.withoutFirstGap (h : Apart (x :: xs)) : Apart (([], x.2) :: xs) where
  isGap := List.forall_mem_cons.mpr ⟨by simp, h.tail.isGap⟩
  spelled := List.forall_mem_cons.mpr ⟨h.spelled x List.mem_cons_self, h.tail.spelled⟩
  mayTouch := List.isChain_cons.mpr (List.isChain_cons.mp h.mayTouch)

/-- Whether tokens may be written behind some blanks and a mark. -/
structure Opens (blanks mark : List Char) (xs : List (List Char × Token)) : Prop where
  isBlank : ∀ c ∈ blanks, Text.isBlank c = true
  mark_eq : mark = [] ∨ mark = ['=']
  /-- Without a mark a sign `=` at the beginning would be taken for one. -/
  marked : ∀ x ∈ xs.head?, x.2 = .op .eq ∨ x.2 = .doubleEquals → mark = ['=']

variable {blanks mark : List Char}

theorem Opens.cut_of_mark (hopens : Opens blanks ['='] xs) (h : Apart xs) :
    Cut (blanks ++ ['='] ++ spaced xs) blanks ['='] (piecesOf xs) where
  text_eq := by
    have hsolid := h.endsSolid (Text.endsSolid_concat blanks (c := '=') rfl)
    rw [Text.dropBlanksRight_of_endsSolid hsolid, text_piecesOf, List.append_assoc]
  isBlank := hopens.isBlank
  stops c hc := by cases hc; rfl
  isMark := Or.inl rfl
  fit := h.fit

/-- Without a mark the gap of the first token is part of the blanks in front. -/
theorem Opens.cut_of_no_mark (hopens : Opens blanks [] (x :: xs)) (h : Apart (x :: xs)) :
    Cut (blanks ++ [] ++ spaced (x :: xs)) (blanks ++ x.1) [] (piecesOf (([], x.2) :: xs)) := by
  have hx : x.2.Spelled := h.spelled x List.mem_cons_self
  obtain ⟨c, cs, hlexeme, hc⟩ := hx.exists_cons
  have htext : Piece.text (piecesOf (([], x.2) :: xs)) = x.2.lexeme ++ spaced xs :=
    text_piecesOf _
  have hsource : blanks ++ [] ++ spaced (x :: xs) = blanks ++ x.1 ++ (x.2.lexeme ++ spaced xs) := by
    rw [spaced_cons, List.append_nil, List.append_assoc, List.append_assoc]
  have hsolid : Text.EndsSolid (blanks ++ x.1 ++ x.2.lexeme ++ spaced xs) := by
    apply h.tail.endsSolid
    exact hx.endsSolid.append_left (by rw [hlexeme]; exact List.cons_ne_nil c cs) _
  refine ⟨?_, ?_, ?_, Or.inr ⟨rfl, ?_⟩, h.withoutFirstGap.fit⟩
  · rw [hsource, ← List.append_assoc, Text.dropBlanksRight_of_endsSolid hsolid, List.nil_append,
      htext, List.append_assoc]
  · intro d hd
    rcases List.mem_append.mp hd with hd | hd
    · exact hopens.isBlank d hd
    · exact Text.isBlank_of_isGap (h.isGap x List.mem_cons_self d hd)
  · intro d hd
    rw [List.nil_append, htext, hlexeme] at hd
    cases hd
    exact hc
  · have hne : x.2.lexeme.head? ≠ some '=' := by
      apply Token.head?_lexeme_ne_mark hx
      · exact fun heq => absurd (hopens.marked x rfl (.inl heq)) (by simp)
      · exact fun heq => absurd (hopens.marked x rfl (.inr heq)) (by simp)
    rw [hlexeme] at hne
    rw [htext, hlexeme]
    exact hne

theorem Opens.exists_cut (hopens : Opens blanks mark xs) (h : Apart xs) :
    ∃ front pieces, Cut (blanks ++ mark ++ spaced xs) front mark pieces ∧
      pieces.map Piece.token = xs.map Prod.snd := by
  rcases hopens.mark_eq with rfl | rfl
  · cases xs with
    | nil =>
      refine ⟨[], [], ⟨?_, by simp, by simp, Or.inr ⟨rfl, by simp⟩, trivial⟩, rfl⟩
      rw [List.append_nil, spaced, List.flatMap_nil, List.append_nil]
      exact Text.dropBlanksRight_of_blank hopens.isBlank
    | cons x xs => exact ⟨_, _, hopens.cut_of_no_mark h, map_token_piecesOf (([], x.2) :: xs)⟩
  · exact ⟨_, _, hopens.cut_of_mark h, map_token_piecesOf xs⟩

/-- Tokens that are written apart are read back, whatever space is left around them. -/
theorem tokens_of_spaced {trailing : List Char} (hopens : Opens blanks mark xs) (h : Apart xs)
    (htrailing : ∀ c ∈ trailing, Text.isBlank c = true) :
    (tokens (String.ofList (blanks ++ mark ++ spaced xs ++ trailing))).map
        (List.map Token.Placed.token) = .ok (xs.map Prod.snd ++ [.ending]) := by
  obtain ⟨front, pieces, hcut, htokens⟩ := hopens.exists_cut h
  have hsource : Cut (String.ofList (blanks ++ mark ++ spaced xs ++ trailing)).toList front mark
      pieces := by
    refine { hcut with text_eq := ?_ }
    rw [String.toList_ofList, Text.dropBlanksRight_append _ htrailing]
    exact hcut.text_eq
  rw [hsource.tokens_eq, Except.map, List.map_append, Piece.map_token_placed, htokens]
  rfl

/-- A sign `=` behind the mark, operators side by side, and blanks that are no gaps at both ends. -/
theorem tokens_of_spaced_of_signs :
    let xs : List (List Char × Token) := [([], .op .eq), (['\n'], .op .eq), ([], .op .lt),
      ([], .string "=>"), ([], .name "a"), (['\t'], .number ".5")]
    Opens ['\u3000'] ['='] xs ∧ Apart xs ∧ (∀ c ∈ ['\u00a0'], Text.isBlank c = true) ∧
      (tokens "\u3000==\n=<\"=>\"a\t.5\u00a0").map (List.map Token.Placed.token) =
        .ok [.op .eq, .op .eq, .op .lt, .string "=>", .name "a", .number ".5", .ending] := by
  intro xs
  have hopens : Opens ['\u3000'] ['='] xs :=
    ⟨by simp [Text.isBlank, Text.blankRanges], Or.inr rfl, fun _ _ _ => rfl⟩
  have hspelled : ∀ x ∈ xs, x.2.Spelled := by
    have hname : (Token.name "a").Spelled := ⟨'a', [], rfl, rfl, by simp⟩
    have hnumber : (Token.number ".5").Spelled :=
      ⟨'.', ['5'], rfl, rfl, by simp [Token.isNumberPart]⟩
    have hstring : (Token.string "=>").Spelled := by simp [Token.Spelled]
    have hop (o : BinaryOp) : (Token.op o).Spelled := trivial
    simp [xs, hname, hnumber, hstring, hop]
  have hmayTouch : xs.IsChain fun x y => y.1 = [] → x.2.MayTouch y.2 := by
    have hequals : (Token.op .eq).MayTouch (.op .lt) := ⟨by decide, by decide⟩
    have hless : (Token.op .lt).MayTouch (.string "=>") := ⟨by decide, by decide⟩
    have hstring : (Token.string "=>").MayTouch (.name "a") := ⟨by decide, by decide⟩
    simp [xs, hequals, hless, hstring]
  have happart : Apart xs := ⟨by simp [xs, Token.isGap], hspelled, hmayTouch⟩
  have htrailing : ∀ c ∈ ['\u00a0'], Text.isBlank c = true := by
    simp [Text.isBlank, Text.blankRanges]
  have hsource : String.ofList (['\u3000'] ++ ['='] ++ spaced xs ++ ['\u00a0']) =
      "\u3000==\n=<\"=>\"a\t.5\u00a0" := by
    cbv
  have htokens := tokens_of_spaced hopens happart htrailing
  rw [hsource] at htokens
  exact ⟨hopens, happart, htrailing, htokens⟩

end Scanner

end FormulaTree
