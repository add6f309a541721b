import FormulaTree.Proofs.Token.Lexeme

/-!
# Texts in pieces

A text that the scanner reads is a row of pieces: a token as it is written, behind a gap that may be
empty. `Piece.Fit` says that a row of pieces is cut where the scanner cuts it. Every text has such a
row up to the end or up to the first character that starts no token, and scanning over it adds its
tokens, each at its place.
-/

namespace FormulaTree

/-- A token in a text, with what stands between it and the token before. -/
structure Piece where
  gap : List Char
  token : Token
  lexeme : List Char

namespace Piece

/-- The characters of a piece. -/
def chars (x : Piece) : List Char :=
  x.gap ++ x.lexeme

/-- The characters of a row of pieces. -/
def text (xs : List Piece) : List Char :=
  xs.flatMap chars

@[simp] theorem text_nil : text [] = [] := rfl

@[simp] theorem text_cons (x : Piece) (xs : List Piece) : text (x :: xs) = x.chars ++ text xs := rfl

/-- Whether the pieces are cut rightly when the characters `rest` follow them. -/
def Fit : List Piece → List Char → Prop
  | [], _ => True
  | x :: xs, rest =>
    (∀ c ∈ x.gap, Token.isGap c = true) ∧ x.token.Written x.lexeme (text xs ++ rest) ∧ Fit xs rest

/-- The tokens of the pieces, when the first of them starts at `place`. -/
def placed (place : Position) : List Piece → List Token.Placed
  | [] => []
  | x :: xs => ⟨x.token, place.after x.gap⟩ :: placed (place.after x.chars) xs

@[simp] theorem length_placed (place : Position) (xs : List Piece) :
    (placed place xs).length = xs.length := by
  induction xs generalizing place with
  | nil => rfl
  | cons x xs ih => rw [placed, List.length_cons, ih, List.length_cons]

@[simp] theorem map_token_placed (place : Position) (xs : List Piece) :
    (placed place xs).map Token.Placed.token = xs.map Piece.token := by
  induction xs generalizing place with
  | nil => rfl
  | cons x xs ih => rw [placed, List.map_cons, ih, List.map_cons]

theorem placed_append (place : Position) (xs ys : List Piece) :
    placed place (xs ++ ys) = placed place xs ++ placed (place.after (text xs)) ys := by
  induction xs generalizing place with
  | nil => rfl
  | cons x xs ih =>
    rw [List.cons_append, placed, ih, placed, text_cons, Position.after_append, List.cons_append]

theorem text_append (xs ys : List Piece) : text (xs ++ ys) = text xs ++ text ys :=
  List.flatMap_append

theorem Fit.of_append {xs ys : List Piece} {rest : List Char} (h : Fit (xs ++ ys) rest) :
    Fit ys rest := by
  induction xs with
  | nil => exact h
  | cons x xs ih => exact ih h.2.2

end Piece

namespace Scanner

/-- Where scanning cannot go on: at a character that starts no token, or at the end. -/
def Stuck (rest : List Char) : Prop :=
  ∀ c cs, rest = c :: cs → Token.isGap c = false ∧ Token.munch? c cs = none

theorem scan_gap (done : List Token.Placed) (place : Position) {gap : List Char} (cs : List Char)
    (hgap : ∀ c ∈ gap, Token.isGap c = true) :
    scan done place (gap ++ cs) = scan done (place.after gap) cs := by
  induction gap generalizing place with
  | nil => rfl
  | cons c gap ih =>
    rw [List.cons_append, scan, if_pos (hgap c List.mem_cons_self), ih _ fun d hd =>
      hgap d (List.mem_cons_of_mem c hd), Position.after_cons]

theorem scan_written (done : List Token.Placed) (place : Position) {t : Token}
    {lexeme more : List Char} (h : t.Written lexeme more) :
    scan done place (lexeme ++ more) = scan (⟨t, place⟩ :: done) (place.after lexeme) more := by
  obtain ⟨c, cs, rfl, hgap⟩ := h.exists_cons
  obtain ⟨n, hmunch, htake, hdrop⟩ := Token.munch?_of_written h
  have hgap : ¬Token.isGap c = true := by rw [hgap]; exact Bool.false_ne_true
  rw [List.cons_append, scan, if_neg hgap]
  simp only [hmunch, htake, hdrop, Position.after_cons]

theorem scan_pieces (done : List Token.Placed) (place : Position) {xs : List Piece}
    {rest : List Char} (h : Piece.Fit xs rest) :
    scan done place (Piece.text xs ++ rest) =
      scan ((Piece.placed place xs).reverse ++ done) (place.after (Piece.text xs)) rest := by
  induction xs generalizing done place with
  | nil => rfl
  | cons x xs ih =>
    obtain ⟨hgap, hwritten, hfit⟩ := h
    rw [Piece.text_cons, Piece.chars, List.append_assoc, List.append_assoc,
      scan_gap done place _ hgap, scan_written done _ hwritten, ih _ _ hfit, Piece.placed,
      List.reverse_cons, List.append_assoc, List.singleton_append, Piece.chars,
      Position.after_append, Position.after_append, Position.after_append]

theorem scan_nil (done : List Token.Placed) (place : Position) :
    scan done place [] = ⟨.ok (⟨.ending, place⟩ :: done).reverse, ⟨[], place⟩⟩ := by
  rw [scan]

theorem scan_stuck (done : List Token.Placed) (place : Position) {c : Char} {cs : List Char}
    (h : Stuck (c :: cs)) :
    scan done place (c :: cs) = ⟨.error ⟨c, place⟩, ⟨c :: cs, place⟩⟩ := by
  obtain ⟨hgap, hmunch⟩ := h c cs rfl
  rw [scan, if_neg (by rw [hgap]; exact Bool.false_ne_true)]
  simp only [hmunch]

/-- Whether a text is a row of pieces and a gap, up to where scanning is stuck. -/
def InPieces (cs : List Char) : Prop :=
  ∃ xs gap rest, cs = Piece.text xs ++ (gap ++ rest) ∧ Piece.Fit xs (gap ++ rest) ∧
    (∀ c ∈ gap, Token.isGap c = true) ∧ Stuck rest

variable {c : Char} {cs : List Char}

theorem inPieces_of_stuck (h : Stuck cs) : InPieces cs :=
  ⟨[], [], cs, rfl, trivial, by simp, h⟩

theorem InPieces.cons_gap (h : InPieces cs) (hgap : Token.isGap c = true) : InPieces (c :: cs) := by
  obtain ⟨xs, gap, rest, hcs, hfit, hgaps, hstuck⟩ := h
  -- The character joins the gap of the first piece, or the gap at the end.
  cases xs with
  | nil =>
    have hgaps : ∀ d ∈ c :: gap, Token.isGap d = true := List.forall_mem_cons.mpr ⟨hgap, hgaps⟩
    exact ⟨[], c :: gap, rest, by rw [hcs]; rfl, trivial, hgaps, hstuck⟩
  | cons x xs =>
    obtain ⟨hxgap, hwritten, hfit⟩ := hfit
    have hxgap : ∀ d ∈ c :: x.gap, Token.isGap d = true :=
      List.forall_mem_cons.mpr ⟨hgap, hxgap⟩
    refine ⟨⟨c :: x.gap, x.token, x.lexeme⟩ :: xs, gap, rest, ?_, ⟨hxgap, hwritten, hfit⟩, hgaps,
      hstuck⟩
    rw [hcs, Piece.text_cons, Piece.text_cons]
    rfl

theorem InPieces.cons_token {t : Token} {n : Nat} (hmunch : Token.munch? c cs = some (t, n))
    (h : InPieces (cs.drop n)) : InPieces (c :: cs) := by
  obtain ⟨xs, gap, rest, hcs, hfit, hgaps, hstuck⟩ := h
  have hwritten := Token.written_of_munch? hmunch
  rw [hcs] at hwritten
  refine ⟨⟨[], t, c :: cs.take n⟩ :: xs, gap, rest, ?_, ⟨by simp, hwritten, hfit⟩, hgaps, hstuck⟩
  rw [Piece.text_cons, List.append_assoc, ← hcs, Piece.chars, List.nil_append, List.cons_append,
    List.take_append_drop]

theorem inPieces (cs : List Char) : InPieces cs := by
  -- On the length of the text: a token takes any number of characters at once.
  induction hn : cs.length using Nat.strong_induction_on generalizing cs with
  | _ n ih =>
    subst hn
    cases cs with
    | nil => exact inPieces_of_stuck fun c cs h => absurd h (List.cons_ne_nil c cs).symm
    | cons c cs =>
      by_cases hgap : Token.isGap c = true
      · have hlt : cs.length < (c :: cs).length := Nat.lt_succ_self cs.length
        exact (ih cs.length hlt cs rfl).cons_gap hgap
      · cases hmunch : Token.munch? c cs with
        | none =>
          apply inPieces_of_stuck
          intro d ds heq
          obtain ⟨rfl, rfl⟩ := List.cons.inj heq
          exact ⟨Bool.not_eq_true _ ▸ hgap, hmunch⟩
        | some found =>
          have hlt : (cs.drop found.2).length < (c :: cs).length := by
            rw [List.length_drop, List.length_cons]
            omega
          exact .cons_token hmunch (ih _ hlt _ rfl)

end Scanner

end FormulaTree
