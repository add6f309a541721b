import FormulaTree.Proofs.Session.History
import FormulaTree.Proofs.Translation

/-!
# Lines that enter a formula

A session shows the formula of a line as the line would be shown on its own, with the settings of
the session. When the formula is rejected, the session counts from the start of the formula, while
`Formula.display` counts from the start of the line: the messages differ if the place is moved by
the blanks in front of the formula.
-/

namespace FormulaTree

theorem Text.trim_trim (s : String) : trim (trim s) = trim s := by
  apply String.toList_inj.mp
  rw [toList_trim, dropBlanksRight_of_endsSolid (endsSolid_trim s), toList_trim,
    List.dropWhile_idempotent]

theorem Text.leading_trim (s : String) : leading (trim s) = [] := by
  have happend := leading_append_trim (trim s)
  rw [trim_trim, dropBlanksRight_of_endsSolid (endsSolid_trim s)] at happend
  exact List.append_left_eq_self.mp happend

namespace Formula

theorem display_of_parse_ok {source : String} {e : Expr} (h : parse source = .ok e)
    (settings : Settings) :
    (display settings source).1 = .ok (Outline.ofExpr settings (Text.trim source) e).text := by
  rw [display, tree, Outline.ofSource_of_parse_ok h]
  rfl

theorem display_of_parse_error {source : String} {e : FormulaError} (h : parse source = .error e)
    (settings : Settings) :
    (display settings source).1 = .error (e.display settings.locale) := by
  rw [display, tree, Outline.ofSource_of_parse_error h]
  rfl

/-- An error in a formula without blanks around it is at a place of the formula. -/
theorem within_start_place {source : String} {e : FormulaError}
    (h : parse (Text.trim source) = .error e) : Position.start.within e.place = e.place := by
  have hwithin := parse_eq_within (Text.trim source)
  rw [Text.trim_trim, h] at hwithin
  -- Nothing is left to trim, so the formula is moved by nothing.
  have heq : e = e.within (Text.origin (Text.trim source)) := Except.error.inj hwithin
  rw [Text.origin, Text.leading_trim] at heq
  conv_rhs => rw [heq, FormulaError.place_within]
  rfl

end Formula

namespace Session

variable {line : String}

theorem ofLine_eq_formula (h : (Text.trim line).toList.head? ≠ some ':') :
    Command.ofLine line = .formula (Text.trim line) := by
  unfold Command.ofLine
  split
  · rename_i cs heq
    rw [heq] at h
    exact absurd rfl h
  · rw [String.ofList_toList]

theorem handle_of_parse_ok (s : Session) (h : (Text.trim line).toList.head? ≠ some ':') {e : Expr}
    (he : Formula.parse (Text.trim line) = .ok e) :
    (s.handle line).1 = .print (Outline.ofExpr s.settings (Text.trim line) e).text := by
  rw [handle, ofLine_eq_formula h, run, refresh]
  simp only [Outline.ofSource_of_parse_ok he, Text.trim_trim]

theorem handle_of_parse_error (s : Session) (h : (Text.trim line).toList.head? ≠ some ':')
    {e : FormulaError} (he : Formula.parse (Text.trim line) = .error e) :
    (s.handle line).1 = .error (e.display s.settings.locale) := by
  rw [handle, ofLine_eq_formula h, run, refresh]
  simp only [Outline.ofSource_of_parse_error he]

/-- A session shows the tree that is shown of the line alone. If the formula of the line is
rejected, both say why, but the session says where in the formula without the blanks in front, so
that the two messages are the same only if these blanks do not move the place. -/
theorem handle_formula_line (s : Session) (h : (Text.trim line).toList.head? ≠ some ':') :
    let answer := (s.handle line).1
    let shown := (Formula.display s.settings line).1
    (∀ text, answer = .print text ↔ shown = .ok text) ∧
    ((∃ message, answer = .error message) ↔ ∃ message, shown = .error message) ∧
    ∀ e, Formula.parse (Text.trim line) = .error e →
      answer = .error (e.display s.settings.locale) ∧
      shown = .error ((e.within (Text.origin line)).display s.settings.locale) ∧
      ((∀ message, answer = .error message ↔ shown = .error message) ↔
        '\n' ∉ Text.leading line ∧ (e.place.line = 1 → Text.leading line = [])) := by
  intro answer shown
  have hline := Formula.parse_eq_within line
  cases hparse : Formula.parse (Text.trim line) with
  | ok e =>
    rw [hparse] at hline
    have hanswer : answer = .print _ := handle_of_parse_ok s h hparse
    have hshown : shown = .ok _ := Formula.display_of_parse_ok hline s.settings
    rw [hanswer, hshown]
    simp
  | error e =>
    rw [hparse] at hline
    have hanswer : answer = .error (e.display s.settings.locale) := handle_of_parse_error s h hparse
    have hshown : shown = .error ((e.within (Text.origin line)).display s.settings.locale) :=
      Formula.display_of_parse_error hline s.settings
    have hplace := Position.within_behind_eq_iff (Formula.within_start_place hparse)
      (Text.leading line)
    have hmessage := FormulaError.display_within_eq_iff (Text.origin line) e s.settings.locale
    rw [hanswer, hshown]
    refine ⟨by simp, by simp, fun d hd => ?_⟩
    obtain rfl := Except.error.inj hd
    refine ⟨rfl, rfl, ?_⟩
    rw [← hplace, ← Text.origin]
    constructor
    · intro hsame
      have heq := (hsame (e.display s.settings.locale)).mp rfl
      exact hmessage.mp (Except.error.inj heq)
    · intro hstays message
      rw [hmessage.mpr hstays]
      simp

theorem handle_formula_line_of_indented :
    let s := Session.new { locale := .en }
    let line := " \t=SUM(1,\n2;"
    let e : FormulaError := .stray ⟨';', ⟨2, 2⟩⟩
    Formula.parse (Text.trim line) = .error e ∧
      ∀ message, (s.handle line).1 = .error message ↔
        (Formula.display s.settings line).1 = .error message := by
  intro s line e
  have hline : (Text.trim line).toList.head? ≠ some ':' := by
    have hhead : (Text.trim line).toList.head? = some '=' := by cbv
    rw [hhead]
    decide
  have hparse : Formula.parse (Text.trim line) = .error e := by cbv
  have hleading : Text.leading line = [' ', '\t'] := by cbv
  -- The error is on the second line, which no blank in front moves.
  have hstays := ((handle_formula_line s hline).2.2 e hparse).2.2
  rw [hleading] at hstays
  exact ⟨hparse, hstays.mpr (by decide)⟩

/-- A session misplaces what it reports when blanks stand in front of the formula. -/
theorem handle_ne_display :
    let s := Session.new { locale := .en }
    let line := "  =1 #"
    (s.handle line).1 = .error "Error: 1:4: unexpected character '#'" ∧
      (Formula.display s.settings line).1 = .error "Error: 1:6: unexpected character '#'" ∧
      ¬∀ message, (s.handle line).1 = .error message ↔
        (Formula.display s.settings line).1 = .error message := by
  intro s line
  have hline : (Text.trim line).toList = ['=', '1', ' ', '#'] := by cbv
  have hparse : Formula.parse (Text.trim line) = .error (.stray ⟨'#', ⟨1, 4⟩⟩) := by cbv
  have hparse' : Formula.parse line = .error (.stray ⟨'#', ⟨1, 6⟩⟩) := by cbv
  have hanswer : (s.handle line).1 = .error "Error: 1:4: unexpected character '#'" := by
    rw [handle_of_parse_error s (by rw [hline]; decide) hparse]
    rfl
  have hshown : (Formula.display s.settings line).1 =
      .error "Error: 1:6: unexpected character '#'" := by
    rw [Formula.display_of_parse_error hparse']
    rfl
  refine ⟨hanswer, hshown, fun hsame => ?_⟩
  have heq := (hsame _).mp hanswer
  rw [hshown] at heq
  exact absurd (Except.error.inj heq) (by decide)

end Session

end FormulaTree
