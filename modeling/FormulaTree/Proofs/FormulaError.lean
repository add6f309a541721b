import FormulaTree.Proofs.Expr.Stop
import FormulaTree.Proofs.Formula

/-!
# What a message says was found

A message names the token where reading stopped by its text, and says that the input ended where
that text is empty. It is empty at the end of the input and at the string literal without contents,
and nowhere else; a formula that was complete is never said to be followed by the end of the input
unless such a literal follows it.
-/

namespace FormulaTree

/-! ## Tokens without a text -/

namespace Token

theorem text_ne_empty {text : String} {c : Char} {cs : List Char} (h : text.toList = c :: cs) :
    text ≠ "" := by
  rintro rfl
  exact absurd h (List.cons_ne_nil c cs).symm

theorem text_eq_empty_iff {t : Token} (h : t = .ending ∨ t.Spelled) :
    t.text = "" ↔ t = .ending ∨ t = .string "" := by
  cases t with
  | name text | number text =>
    obtain ⟨c, cs, htext, -⟩ := h.resolve_left (by simp)
    simpa [Token.text] using text_ne_empty htext
  | string contents => simp [Token.text]
  | ending => simp [Token.text]
  | op o => cases o <;> decide
  | doubleEquals | leftParen | rightParen | comma => decide

end Token

namespace Scanner

variable {source : String} {ts : List Token.Placed}

/-- The tokens of a formula can be written, up to the end of the input behind them. -/
theorem exists_spelled (h : tokens source = .ok ts) :
    ∃ us last, ts = us ++ [last] ∧ last.token = .ending ∧ ∀ t ∈ us, t.token.Spelled := by
  obtain ⟨blanks, mark, xs, hcut⟩ := exists_cut h
  obtain rfl := Except.ok.inj (h.symm.trans hcut.tokens_eq)
  refine ⟨_, _, rfl, rfl, fun t ht => ?_⟩
  have hmem : t.token ∈ xs.map Piece.token := by
    rw [← Piece.map_token_placed (.behind (blanks ++ mark))]
    exact List.mem_map_of_mem ht
  obtain ⟨x, hx, hxt⟩ := List.mem_map.mp hmem
  rw [← hxt]
  exact (hcut.fit.mem hx).2

theorem ended_tokens (h : tokens source = .ok ts) : Token.Ended ts := by
  obtain ⟨us, last, hts, hlast, hspelled⟩ := exists_spelled h
  refine ⟨us, last, hts, hlast, fun t ht hending => ?_⟩
  have hnone := hspelled t ht
  rw [hending] at hnone
  exact hnone

theorem spelled_of_mem_tokens (h : tokens source = .ok ts) {t : Token.Placed} (ht : t ∈ ts) :
    t.token = .ending ∨ t.token.Spelled := by
  obtain ⟨us, last, rfl, hlast, hspelled⟩ := exists_spelled h
  rcases List.mem_append.mp ht with ht | ht
  · exact .inr (hspelled t ht)
  · rw [List.mem_singleton.mp ht]
    exact .inl hlast

end Scanner

/-! ## Messages -/

/-- Whether a message with this expectation says what was found. -/
def Expectation.tellsFound : Expectation → Bool
  | token _ | operand | endOfInput => true
  | singleEquals | shallowerNesting | fewerOperators => false

namespace Mismatch

/-- The same mismatch at the end of the input. -/
def atEnd (e : Mismatch) : Mismatch := { e with found := Token.ending.text }

variable {e : Mismatch}

/-- A text that is found stands in quotes. -/
theorem foundOr_eq_iff (atEnd : String) (h : atEnd.toList.head? ≠ some '\x27') :
    e.foundOr atEnd = atEnd ↔ e.found = "" := by
  unfold foundOr
  split
  · rename_i hempty
    simpa using hempty
  · rename_i hne
    have hquoted : "'" ++ e.found ++ "'" ≠ atEnd := by
      rintro rfl
      exact h (by simp)
    simpa [hquoted] using hne

theorem foundOr_eq_atEnd_iff (atEnd : String) (h : atEnd.toList.head? ≠ some '\x27') :
    e.foundOr atEnd = e.atEnd.foundOr atEnd ↔ e.found = "" := by
  rw [← foundOr_eq_iff atEnd h]
  rfl

theorem english_eq_atEnd_iff (h : e.expected.tellsFound = true) :
    e.english = e.atEnd.english ↔ e.found = "" := by
  have hexpected : e.atEnd.expected = e.expected := rfl
  rw [english, english, hexpected, ← foundOr_eq_atEnd_iff "end of input" (by decide)]
  cases hcause : e.expected with
  | token _ | operand => exact String.append_right_inj _
  | endOfInput => exact (String.append_left_inj _).trans (String.append_right_inj _)
  | singleEquals | shallowerNesting | fewerOperators =>
    rw [hcause] at h
    exact absurd h (by decide)

theorem japanese_eq_atEnd_iff (h : e.expected.tellsFound = true) :
    e.japanese = e.atEnd.japanese ↔ e.found = "" := by
  have hexpected : e.atEnd.expected = e.expected := rfl
  rw [japanese, japanese, hexpected, ← foundOr_eq_atEnd_iff "入力の終わり" (by decide)]
  cases hcause : e.expected with
  | token _ | operand | endOfInput => exact String.append_right_inj _
  | singleEquals | shallowerNesting | fewerOperators =>
    rw [hcause] at h
    exact absurd h (by decide)

end Mismatch

namespace FormulaError

/-- A message that says what was found says that the input ended where the text found is empty. -/
theorem message_eq_atEnd_iff {e : Mismatch} (h : e.expected.tellsFound = true) (locale : Locale) :
    (mismatch e).message locale = (mismatch e.atEnd).message locale ↔ e.found = "" := by
  cases locale with
  | en => exact (String.append_right_inj _).trans (Mismatch.english_eq_atEnd_iff h)
  | ja => exact (String.append_right_inj _).trans (Mismatch.japanese_eq_atEnd_iff h)

/-- Every other message is worded without what was found. -/
theorem message_of_not_tellsFound {e : Mismatch} (h : e.expected.tellsFound = false)
    (text : String) (locale : Locale) :
    (mismatch { e with found := text }).message locale = (mismatch e).message locale := by
  cases hcause : e.expected with
  | token _ | operand | endOfInput =>
    rw [hcause] at h
    exact absurd h (by simp [Expectation.tellsFound])
  | singleEquals | shallowerNesting | fewerOperators =>
    unfold message reason Mismatch.english Mismatch.japanese
    cases locale <;> simp only [hcause, place]

end FormulaError

/-! ## Where reading stopped -/

namespace Formula

variable {source : String} {e : Mismatch}

/-- A formula is rejected for a mismatch when it can be scanned and its tokens cannot be read. -/
theorem exists_of_parse_eq_mismatch (h : parse source = .error (.mismatch e)) :
    ∃ ts, Scanner.tokens source = .ok ts ∧ (Reader.ofTokens ts).read.1 = .error e := by
  unfold parse at h
  cases hscan : Scanner.tokens source with
  | error stray =>
    rw [hscan] at h
    exact absurd h (by simp [Except.mapError, bind, Except.bind])
  | ok ts =>
    rw [hscan] at h
    cases hread : (Reader.ofTokens ts).read.1 with
    | error cause =>
      simp only [Except.mapError, bind, Except.bind, hread] at h
      exact ⟨ts, rfl, by rw [hread, FormulaError.mismatch.inj (Except.error.inj h)]⟩
    | ok d => exact absurd h (by simp [Except.mapError, bind, Except.bind, hread])

/-- Whether the reader of a formula takes the tokens `before` and stops in front of `t`. -/
structure StopsAt (source : String) (before : List Token.Placed) (t : Token.Placed)
    (after : List Token.Placed) : Prop where
  tokens_eq : Scanner.tokens source = .ok (before ++ t :: after)
  rest_eq : (Reader.ofTokens (before ++ t :: after)).read.2.rest = t :: after

/-- A mismatch reports the token where the reader stopped. It looks like the end of the input there
and at a string literal without contents, in both languages and nowhere else. -/
theorem message_tells_end (h : parse source = .error (.mismatch e)) :
    ∃ before t after, StopsAt source before t after ∧
      (e.found = t.token.text ∧ e.place = t.place) ∧
      (e.found = "" ↔ t.token = .ending ∨ t.token = .string "") ∧
      (e.expected.tellsFound = true → ∀ locale,
        (FormulaError.mismatch e).message locale = (FormulaError.mismatch e.atEnd).message locale ↔
          t.token = .ending ∨ t.token = .string "") ∧
      (e.expected.tellsFound = false → ∀ text locale,
        (FormulaError.mismatch { e with found := text }).message locale =
          (FormulaError.mismatch e).message locale) ∧
      (e.expected = .endOfInput → t.token ≠ .ending) := by
  obtain ⟨ts, hscan, hread⟩ := exists_of_parse_eq_mismatch h
  obtain ⟨before, t, after, rfl, hrest, hreported, hcomplete⟩ :=
    Reader.exists_stop (Scanner.ended_tokens hscan) hread
  have hempty : e.found = "" ↔ t.token = .ending ∨ t.token = .string "" := by
    rw [hreported.1]
    exact Token.text_eq_empty_iff (Scanner.spelled_of_mem_tokens hscan (by simp))
  refine ⟨before, t, after, ⟨hscan, hrest⟩, hreported, hempty, ?_, ?_, hcomplete⟩
  · intro htells locale
    rw [FormulaError.message_eq_atEnd_iff htells, hempty]
  · intro htells text locale
    exact FormulaError.message_of_not_tellsFound htells text locale

/-- The empty literal as an operand too many. -/
theorem message_tells_end_of_empty_string :
    let e : Mismatch := ⟨.token ")", "", ⟨1, 4⟩⟩
    parse "F(1\"\"" = .error (.mismatch e) ∧
      ∃ before t after, StopsAt "F(1\"\"" before t after ∧
        (e.found = t.token.text ∧ e.place = t.place) ∧
        (e.found = "" ↔ t.token = .ending ∨ t.token = .string "") ∧
        (e.expected.tellsFound = true → ∀ locale,
          (FormulaError.mismatch e).message locale =
              (FormulaError.mismatch e.atEnd).message locale ↔
            t.token = .ending ∨ t.token = .string "") ∧
        (e.expected.tellsFound = false → ∀ text locale,
          (FormulaError.mismatch { e with found := text }).message locale =
            (FormulaError.mismatch e).message locale) ∧
        (e.expected = .endOfInput → t.token ≠ .ending) := by
  intro e
  have h : parse "F(1\"\"" = .error (.mismatch e) := by cbv
  exact ⟨h, message_tells_end h⟩

/-- Behind a complete formula the empty literal is reported as the end of the input, though it is
the token where the reader stopped. -/
theorem found_empty_of_token_present :
    let e : Mismatch := ⟨.endOfInput, "", ⟨1, 4⟩⟩
    let t : Token.Placed := ⟨.string "", ⟨1, 4⟩⟩
    parse "A1 \"\"" = .error (.mismatch e) ∧
      StopsAt "A1 \"\"" [⟨.name "A1", ⟨1, 1⟩⟩] t [⟨.ending, ⟨1, 6⟩⟩] ∧
      ¬(e.found = "" ↔ t.token = .ending) ∧
      (FormulaError.mismatch e).message .en =
        "1:4: unexpected end of input after a complete formula" ∧
      (FormulaError.mismatch e).message .ja =
        "1:4: 式の後ろに余分なトークンがあります: 入力の終わり" := by
  intro e t
  have hfound : ¬(e.found = "" ↔ t.token = .ending) := by simp [e, t]
  have hen : (FormulaError.mismatch ⟨.endOfInput, "", ⟨1, 4⟩⟩).message .en =
      "1:4: unexpected end of input after a complete formula" := by rfl
  have hja : (FormulaError.mismatch ⟨.endOfInput, "", ⟨1, 4⟩⟩).message .ja =
      "1:4: 式の後ろに余分なトークンがあります: 入力の終わり" := by rfl
  exact ⟨by cbv, ⟨by cbv, by rfl⟩, hfound, hen, hja⟩

end Formula

end FormulaTree
