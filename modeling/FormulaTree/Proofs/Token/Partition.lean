import FormulaTree.Proofs.Position
import FormulaTree.Proofs.Token.Pieces

/-!
# What the tokens of a formula cover

A formula that can be scanned is, up to the blanks at its end, a run of blanks, a mark `=` if there
is one, and the pieces of its tokens. Each token stands at its place in the text, and the end of the
formula behind its last character.
-/

namespace FormulaTree

namespace Scanner

/-- Whether `mark` is what is passed over in front of `rest` as the mark of a formula. -/
def IsMark (mark rest : List Char) : Prop :=
  mark = ['='] ∨ mark = [] ∧ rest.head? ≠ some '='

theorem lead_append {blanks mark rest : List Char} (place : Position)
    (hblanks : ∀ c ∈ blanks, Text.isBlank c = true)
    (hstops : ∀ c ∈ (mark ++ rest).head?, Text.isBlank c = false) (hmark : IsMark mark rest) :
    lead ⟨blanks ++ (mark ++ rest), place⟩ = ⟨rest, place.after (blanks ++ mark)⟩ := by
  have htake : (blanks ++ (mark ++ rest)).takeWhile Text.isBlank = blanks :=
    Text.takeWhile_append_of_stops hblanks hstops
  unfold lead
  simp only [htake, skip, List.drop_left, List.take_left]
  rcases hmark with rfl | ⟨rfl, hne⟩
  · rw [List.singleton_append, List.head?_cons, if_pos rfl, List.drop_succ_cons, List.drop_zero,
      List.take_succ_cons, List.take_zero, Position.after_append]
  · rw [List.nil_append, if_neg hne, List.append_nil]

/-- Every text has a front that is passed over. -/
theorem exists_lead (cs : List Char) :
    ∃ blanks mark rest, cs = blanks ++ (mark ++ rest) ∧ (∀ c ∈ blanks, Text.isBlank c = true) ∧
      (∀ c ∈ (mark ++ rest).head?, Text.isBlank c = false) ∧ IsMark mark rest := by
  obtain ⟨blanks, more, hcs, -, hblanks, hstops⟩ := Text.exists_run Text.isBlank cs
  by_cases hhead : more.head? = some '='
  · obtain ⟨rest, rfl⟩ := List.head?_eq_some_iff.mp hhead
    exact ⟨blanks, ['='], rest, hcs, hblanks, hstops, Or.inl rfl⟩
  · exact ⟨blanks, [], more, hcs, hblanks, hstops, Or.inr ⟨rfl, hhead⟩⟩

end Scanner

theorem Text.isBlank_of_isGap {c : Char} (h : Token.isGap c = true) : Text.isBlank c = true := by
  simp only [Token.isGap, Bool.or_eq_true, decide_eq_true_eq] at h
  rcases h with ((rfl | rfl) | rfl) | rfl <;> decide

namespace Scanner

/-- Whether a formula is, apart from the blanks at its end, a run of blanks, a mark and pieces. -/
structure Cut (source blanks mark : List Char) (xs : List Piece) : Prop where
  text_eq : Text.dropBlanksRight source = blanks ++ (mark ++ Piece.text xs)
  isBlank : ∀ c ∈ blanks, Text.isBlank c = true
  stops : ∀ c ∈ (mark ++ Piece.text xs).head?, Text.isBlank c = false
  isMark : IsMark mark (Piece.text xs)
  fit : Piece.Fit xs []

/-- Scanning succeeds when nothing is left behind the last piece. -/
theorem Cut.tokens_eq {source : String} {blanks mark : List Char} {xs : List Piece}
    (h : Cut source.toList blanks mark xs) :
    tokens source = .ok (Piece.placed (.behind (blanks ++ mark)) xs ++
      [⟨.ending, .behind (blanks ++ mark ++ Piece.text xs)⟩]) := by
  have hscan := scan_pieces [] (Position.start.after (blanks ++ mark)) h.fit
  rw [List.append_nil, List.append_nil] at hscan
  unfold tokens run ofString
  rw [h.text_eq, lead_append .start h.isBlank h.stops h.isMark]
  simp only [hscan, scan_nil]
  rw [List.reverse_cons, List.reverse_reverse, ← Position.after_append, Position.after_start,
    Position.after_start]

/-- When scanning succeeds, nothing is left behind the last piece. -/
theorem exists_cut {source : String} {ts : List Token.Placed} (h : tokens source = .ok ts) :
    ∃ blanks mark xs, Cut source.toList blanks mark xs := by
  have hsolid := Text.endsSolid_dropBlanksRight source.toList
  unfold tokens ofString at h
  obtain ⟨blanks, mark, body, htext, hblanks, hstops, hmark⟩ :=
    exists_lead (Text.dropBlanksRight source.toList)
  obtain ⟨xs, gap, rest, rfl, hfit, hgap, hstuck⟩ := inPieces body
  have hrest : rest = [] := by
    cases rest with
    | nil => rfl
    | cons c rest =>
      unfold run at h
      rw [htext, lead_append .start hblanks hstops hmark] at h
      simp only [scan_pieces _ _ hfit, scan_gap _ _ _ hgap, scan_stuck _ _ hstuck] at h
      exact absurd h (by simp)
  subst hrest
  -- A gap at the end would be blank, and the last character is not.
  have hnil : gap = [] := by
    by_contra hne
    have hlast := hsolid (gap.getLast hne) (by
      rw [htext, Option.mem_def, List.append_nil, ← List.append_assoc, ← List.append_assoc,
        List.getLast?_append_of_ne_nil _ hne, List.getLast?_eq_some_getLast hne])
    rw [Text.isBlank_of_isGap (hgap _ (List.getLast_mem hne))] at hlast
    exact absurd hlast (by decide)
  subst hnil
  rw [List.append_nil, List.append_nil] at *
  exact ⟨blanks, mark, xs, htext, hblanks, hstops, hmark, hfit⟩

end Scanner

namespace Piece

theorem getElem?_placed (place : Position) (xs : List Piece) (x : Piece) (ys : List Piece) :
    (placed place (xs ++ x :: ys))[xs.length]? =
      some ⟨x.token, (place.after (text xs)).after x.gap⟩ := by
  rw [placed_append, List.getElem?_append_right (by rw [length_placed]), length_placed,
    Nat.sub_self, placed, List.getElem?_cons_zero]

theorem Fit.at {before after : List Piece} {x : Piece} {rest : List Char}
    (h : Fit (before ++ x :: after) rest) :
    (∀ c ∈ x.gap, Token.isGap c = true) ∧ x.token.Written x.lexeme (text after ++ rest) :=
  ⟨h.of_append.1, h.of_append.2.1⟩

theorem Fit.mem {xs : List Piece} {x : Piece} {rest : List Char} (h : Fit xs rest) (hx : x ∈ xs) :
    (∀ c ∈ x.gap, Token.isGap c = true) ∧ x.token.Spelled := by
  obtain ⟨before, after, rfl⟩ := List.append_of_mem hx
  exact ⟨h.at.1, h.at.2.spelled⟩

theorem Fit.eq_nil_of_text {xs : List Piece} {rest : List Char} (h : Fit xs rest)
    (hnil : text xs = []) : xs = [] := by
  cases xs with
  | nil => rfl
  | cons x xs =>
    rw [text_cons, List.append_eq_nil_iff, chars, List.append_eq_nil_iff] at hnil
    exact absurd hnil.1.2 h.2.1.lexeme_ne_nil

/-- The tokens of a row of pieces stand one behind the other, and whatever follows the pieces stands
behind all of them. -/
theorem Fit.pairwise_placed {xs : List Piece} {rest : List Char} (h : Fit xs rest) (t : Token)
    (place : Position) :
    (placed place xs ++ [Token.Placed.mk t (place.after (text xs))]).Pairwise
        (fun s t => s.place < t.place) ∧
      ∀ q < place, ∀ s ∈ placed place xs ++ [Token.Placed.mk t (place.after (text xs))],
        q < s.place := by
  induction xs generalizing place with
  | nil =>
    refine ⟨List.pairwise_singleton _ _, fun q hq s hs => ?_⟩
    rw [placed, List.nil_append, List.mem_singleton] at hs
    rw [hs]
    exact hq
  | cons x xs ih =>
    obtain ⟨-, hwritten, hfit⟩ := h
    -- The next token stands behind this lexeme, which is not empty.
    obtain ⟨hpairwise, hbehind⟩ := ih hfit (place.after x.chars)
    have hlt : place.after x.gap < place.after x.chars := by
      rw [chars, Position.after_append]
      exact Position.lt_after _ hwritten.lexeme_ne_nil
    rw [placed, text_cons, Position.after_append, List.cons_append]
    refine ⟨List.pairwise_cons.mpr ⟨hbehind _ hlt, hpairwise⟩, fun q hq s hs => ?_⟩
    have hgap : q < place.after x.gap := Position.lt_after_of_lt hq
    rcases List.mem_cons.mp hs with rfl | hs
    · exact hgap
    · exact hbehind q (Position.lt_trans hgap hlt) s hs

end Piece

/-- How the tokens of a formula lie in it. What is said of a single piece `x` splits the pieces
before and after it, so that the characters around `x` can be named. -/
structure Partition (source : List Char) (tokens : List Token.Placed) where
  blanks : List Char
  /-- The sign `=` in front of a formula, which is no token. -/
  mark : List Char
  pieces : List Piece
  trailing : List Char
  source_eq : source = blanks ++ mark ++ Piece.text pieces ++ trailing
  isBlank : ∀ c ∈ blanks ++ trailing, Text.isBlank c = true
  endsSolid : Text.EndsSolid (blanks ++ mark ++ Piece.text pieces)
  mark_eq : mark = [] ∨ mark = ['=']
  isGap : ∀ x ∈ pieces, ∀ c ∈ x.gap, Token.isGap c = true
  spelled : ∀ x ∈ pieces, x.token.Spelled
  /-- Only the last token may be a string without its closing quote. -/
  lexeme_eq : ∀ before x after, pieces = before ++ x :: after → x.lexeme = x.token.lexeme ∨
    after = [] ∧ ∃ contents, x.token = .string contents ∧ x.lexeme = '"' :: contents.toList
  /-- No token could have been read as a longer one. -/
  stops : ∀ before x after, pieces = before ++ x :: after →
    ∀ c ∈ (Piece.text after).head?, x.token.continuedBy c = false
  length_eq : tokens.length = pieces.length + 1
  getElem?_eq : ∀ before x after, pieces = before ++ x :: after → tokens[before.length]? =
    some ⟨x.token, .behind (blanks ++ mark ++ Piece.text before ++ x.gap)⟩
  getLast?_eq : tokens.getLast? = some ⟨.ending, .behind (blanks ++ mark ++ Piece.text pieces)⟩

namespace Partition

/-- The partition that a cut gives. -/
def ofCut {source blanks mark trailing : List Char} {pieces : List Piece}
    (hcut : Scanner.Cut source blanks mark pieces)
    (hsource : source = Text.dropBlanksRight source ++ trailing)
    (htrailing : ∀ c ∈ trailing, Text.isBlank c = true) :
    Partition source (Piece.placed (.behind (blanks ++ mark)) pieces ++
      [⟨.ending, .behind (blanks ++ mark ++ Piece.text pieces)⟩]) where
  blanks := blanks
  mark := mark
  pieces := pieces
  trailing := trailing
  source_eq := by rw [List.append_assoc blanks, ← hcut.text_eq]; exact hsource
  isBlank c hc := (List.mem_append.mp hc).elim (hcut.isBlank c) (htrailing c)
  endsSolid := by
    rw [List.append_assoc, ← hcut.text_eq]
    exact Text.endsSolid_dropBlanksRight source
  mark_eq := by
    rcases hcut.isMark with h | h
    · exact Or.inr h
    · exact Or.inl h.1
  isGap x hx := (hcut.fit.mem hx).1
  spelled x hx := (hcut.fit.mem hx).2
  lexeme_eq before x after heq := by
    subst heq
    have hwritten := hcut.fit.at.2
    rw [List.append_nil] at hwritten
    generalize htext : Piece.text after = more at hwritten
    generalize x.token = t, x.lexeme = lexeme at hwritten
    cases hwritten with
    | whole => exact Or.inl rfl
    | @unclosed contents =>
      exact Or.inr ⟨hcut.fit.of_append.2.2.eq_nil_of_text htext, _, rfl, by rw [String.toList_ofList]⟩
  stops before x after heq := by
    subst heq
    have hstops := hcut.fit.at.2.stops
    rwa [List.append_nil] at hstops
  length_eq := by rw [List.length_append, Piece.length_placed, List.length_singleton]
  getElem?_eq before x after heq := by
    subst heq
    rw [List.getElem?_append_left (by
      rw [Piece.length_placed, List.length_append, List.length_cons]; omega),
      Piece.getElem?_placed, ← Position.after_start, ← Position.after_start,
      ← Position.after_append, ← Position.after_append, ← List.append_assoc]
  getLast?_eq := List.getLast?_append_of_ne_nil _ (List.cons_ne_nil _ _)

end Partition

namespace Scanner

/-- Scanning loses no character, takes none twice, and reports the place of each token. -/
theorem tokens_partition {source : String} {tokens : List Token.Placed}
    (h : Scanner.tokens source = .ok tokens) :
    Nonempty (Partition source.toList tokens) ∧
      tokens.Pairwise (fun s t => s.place < t.place) ∧
      (∀ t ∈ tokens.dropLast, t.token ≠ .ending) ∧
      (Text.isAllBlank source = true → tokens = [⟨.ending, ⟨1, 1⟩⟩]) := by
  obtain ⟨trailing, hsource, htrailing⟩ := Text.exists_trailing source.toList
  obtain ⟨blanks, mark, pieces, hcut⟩ := exists_cut h
  obtain rfl := Except.ok.inj (h.symm.trans hcut.tokens_eq)
  refine ⟨⟨Partition.ofCut hcut hsource htrailing⟩, ?_, ?_, ?_⟩
  · have hpairwise := (hcut.fit.pairwise_placed .ending (.behind (blanks ++ mark))).1
    rwa [← Position.after_start, ← Position.after_append, Position.after_start,
      Position.after_start] at hpairwise
  · intro t ht
    rw [List.dropLast_concat] at ht
    have htoken : t.token ∈ pieces.map Piece.token := by
      rw [← Piece.map_token_placed (.behind (blanks ++ mark))]
      exact List.mem_map_of_mem ht
    obtain ⟨x, hx, hxt⟩ := List.mem_map.mp htoken
    intro hending
    have hspelled := (hcut.fit.mem hx).2
    rw [hxt, hending] at hspelled
    exact hspelled
  -- In a blank source nothing is left of any part.
  · intro hblank
    have hnil : Text.dropBlanksRight source.toList = [] :=
      Text.dropBlanksRight_of_blank (List.all_eq_true.mp hblank)
    have htext := hcut.text_eq
    rw [hnil] at htext
    obtain ⟨hblanks, hmore⟩ := List.append_eq_nil_iff.mp htext.symm
    obtain ⟨hmark, hpieces⟩ := List.append_eq_nil_iff.mp hmore
    rw [hblanks, hmark, hcut.fit.eq_nil_of_text hpieces]
    rfl

/-- A string over two lines, a string without its closing quote, and blanks around the formula. -/
theorem tokens_partition_two_lines :
    ∃ tokens, Scanner.tokens " = a<>\"x\ny\" .5,\"z \t" = .ok tokens ∧ tokens.length = 7 ∧
      Nonempty (Partition " = a<>\"x\ny\" .5,\"z \t".toList tokens) := by
  have h : Scanner.tokens " = a<>\"x\ny\" .5,\"z \t" = .ok
      [⟨.name "a", ⟨1, 4⟩⟩, ⟨.op .ne, ⟨1, 5⟩⟩, ⟨.string "x\ny", ⟨1, 7⟩⟩, ⟨.number ".5", ⟨2, 4⟩⟩,
        ⟨.comma, ⟨2, 6⟩⟩, ⟨.string "z", ⟨2, 7⟩⟩, ⟨.ending, ⟨2, 9⟩⟩] := by
    cbv
  exact ⟨_, h, rfl, (tokens_partition h).1⟩

end Scanner

end FormulaTree
