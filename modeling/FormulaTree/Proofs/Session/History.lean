import FormulaTree.Proofs.Session.Step
import FormulaTree.Proofs.Translation

/-!
# What a session remembers

A session is what its settings, the last formula entered, and the calls opened and closed since the
outline was made come to. Nothing else of the lines before is left in it.
-/

namespace FormulaTree

namespace Session

/-- The session after some lines. -/
def after (s : Session) (lines : List String) : Session :=
  lines.foldl (fun s line => (s.handle line).2) s

/-- The settings after some lines. -/
def settingsAfter (settings : Settings) (lines : List String) : Settings :=
  lines.foldl (fun settings line => settings.after (Command.ofLine line)) settings

/-- The last line that enters a formula. -/
def lastFormula? (lines : List String) : Option String :=
  (lines.filter fun line => (Command.ofLine line).isFormula).getLast?

/-- Whether a line makes the outline anew. -/
def isReset (line : String) : Bool :=
  (Command.ofLine line).isFormula || (Command.ofLine line).isChange

/-- The lines that open or close calls, from the last line on that makes the outline anew. -/
def recentFolds (lines : List String) : List String :=
  (lines.rtakeWhile fun line => !isReset line).filter fun line => (Command.ofLine line).isFold

/-! ## One more line -/

theorem after_append (s : Session) (lines more : List String) :
    s.after (lines ++ more) = (s.after lines).after more :=
  List.foldl_append

theorem after_concat (s : Session) (lines : List String) (line : String) :
    s.after (lines ++ [line]) = ((s.after lines).handle line).2 :=
  after_append s lines [line]

theorem settingsAfter_concat (settings : Settings) (lines : List String) (line : String) :
    settingsAfter settings (lines ++ [line]) =
      (settingsAfter settings lines).after (Command.ofLine line) := by
  unfold settingsAfter
  rw [List.foldl_append, List.foldl_cons, List.foldl_nil]

theorem dictionary_settingsAfter (settings : Settings) (lines : List String) :
    (settingsAfter settings lines).dictionary = settings.dictionary := by
  induction lines using List.reverseRecOn with
  | nil => rfl
  | append_singleton lines line ih =>
    rw [settingsAfter_concat, Settings.dictionary_after, ih]

theorem lastFormula?_concat (lines : List String) (line : String) :
    lastFormula? (lines ++ [line]) =
      if (Command.ofLine line).isFormula then some line else lastFormula? lines := by
  unfold lastFormula?
  rw [List.filter_append, List.filter_singleton]
  cases (Command.ofLine line).isFormula with
  | true => exact List.getLast?_concat
  | false => exact congrArg List.getLast? (List.append_nil _)

theorem recentFolds_concat (lines : List String) (line : String) :
    recentFolds (lines ++ [line]) =
      if isReset line then []
      else if (Command.ofLine line).isFold then recentFolds lines ++ [line]
      else recentFolds lines := by
  unfold recentFolds
  rw [List.rtakeWhile_concat]
  cases isReset line with
  | true => rfl
  | false =>
    rw [if_pos (by rfl), List.filter_append, List.filter_singleton]
    cases (Command.ofLine line).isFold with
    | true => rfl
    | false => exact List.append_nil _

theorem eq_formula_of_isFormula {line : String} (h : (Command.ofLine line).isFormula = true) :
    Command.ofLine line = .formula (Text.trim line) := by
  cases hline : Command.ofLine line with
  | formula source => rw [Command.eq_trim_of_ofLine hline]
  | _ => rw [hline] at h; exact absurd h Bool.false_ne_true

/-- The last formula is what is left when all other lines are taken away. -/
theorem after_lastFormula? (settings : Settings) (lines : List String) :
    (new settings).after (lastFormula? lines).toList =
      made settings ((lastFormula? lines).map Text.trim) := by
  cases hlast : lastFormula? lines with
  | none => rfl
  | some line =>
    have hformula : (Command.ofLine line).isFormula = true :=
      (List.mem_filter.mp (List.mem_of_getLast? hlast)).2
    show ((new settings).handle line).2 = made settings (some (Text.trim line))
    rw [handle, eq_formula_of_isFormula hformula, run_formula]
    rfl

/-! ## The invariant -/

/-- What a session is after some lines. -/
structure Tracks (settings : Settings) (lines : List String) (s : Session) : Prop where
  settings_eq : s.settings = settingsAfter settings lines
  source_eq : s.source? = (lastFormula? lines).map Text.trim
  expandAll_eq : s.outline?.map Outline.expandAll = (made s.settings s.source?).outline?
  eq_after : s = (made s.settings s.source?).after (recentFolds lines)

theorem expandAll_made (settings : Settings) (source? : Option String) :
    (made settings source?).outline?.map Outline.expandAll = (made settings source?).outline? := by
  cases source? with
  | none => rfl
  | some source =>
    unfold made
    dsimp only [Option.bind_some]
    cases houtline : Outline.ofSource settings source with
    | error e => rfl
    | ok o => exact congrArg some (Outline.expandAll_of_ofSource houtline)

namespace Tracks

variable {settings : Settings} {lines : List String} {s : Session}

theorem outline?_eq_none (h : Tracks settings lines s) (hsource : s.source? = none) :
    s.outline? = none := by
  have hexpand := h.expandAll_eq
  rw [hsource] at hexpand
  exact Option.map_eq_none_iff.mp hexpand

theorem of_made {line : String} {source? : Option String}
    (hsource : source? = (lastFormula? (lines ++ [line])).map Text.trim)
    (hreset : isReset line = true) :
    Tracks settings (lines ++ [line])
      (made (settingsAfter settings (lines ++ [line])) source?) where
  settings_eq := rfl
  source_eq := hsource
  expandAll_eq := expandAll_made _ _
  eq_after := by
    rw [recentFolds_concat, if_pos hreset]
    rfl

theorem handle (h : Tracks settings lines s) (line : String) :
    Tracks settings (lines ++ [line]) (s.handle line).2 := by
  unfold Session.handle
  have hafter := settingsAfter_concat settings lines line
  -- A formula makes the outline anew.
  by_cases hformula : (Command.ofLine line).isFormula = true
  · have hline := eq_formula_of_isFormula hformula
    have hsettings : settingsAfter settings (lines ++ [line]) = s.settings := by
      rw [hafter, hline, h.settings_eq]
      rfl
    rw [hline, run_formula, ← hsettings]
    refine of_made ?_ ?_
    · rw [lastFormula?_concat, if_pos hformula]
      rfl
    · rw [isReset, hformula, Bool.true_or]
  have hlast : lastFormula? (lines ++ [line]) = lastFormula? lines := by
    rw [lastFormula?_concat, if_neg hformula]
  -- So does a change of the settings, with the formula that was there.
  by_cases hchange : (Command.ofLine line).isChange = true
  · rw [run_of_isChange hchange h.outline?_eq_none, h.settings_eq, ← hafter]
    refine of_made ?_ ?_
    · rw [hlast]
      exact h.source_eq
    · rw [isReset, hchange, Bool.or_true]
  rw [Bool.not_eq_true] at hformula hchange
  have hreset : ¬isReset line = true := by
    rw [isReset, hformula, hchange]
    exact Bool.false_ne_true
  have hsettings : s.settings = settingsAfter settings (lines ++ [line]) := by
    rw [hafter, Settings.after_of_not_isChange _ hchange]
    exact h.settings_eq
  -- What opens and closes calls does so in the new session too, which has the same outline.
  by_cases hfold : (Command.ofLine line).isFold = true
  · obtain ⟨outline?, hrun, hexpand⟩ := run_of_isFold (s := s) hfold
    rw [hrun]
    refine ⟨hsettings, ?_, ?_, ?_⟩
    · rw [hlast]
      exact h.source_eq
    · exact hexpand.trans h.expandAll_eq
    · rw [recentFolds_concat, if_neg hreset, if_pos hfold, after_concat]
      dsimp only
      rw [← h.eq_after, Session.handle, hrun]
  -- Every other command leaves the session as it is.
  rw [Bool.not_eq_true] at hfold
  rw [run_of_other hformula hchange hfold]
  refine ⟨hsettings, ?_, h.expandAll_eq, ?_⟩
  · rw [hlast]
    exact h.source_eq
  · rw [recentFolds_concat, if_neg hreset, hfold]
    exact h.eq_after

theorem isSome_outline?_iff (h : Tracks settings lines s) :
    s.outline?.isSome = true ↔
      ∃ line e, lastFormula? lines = some line ∧ Formula.parse line = .ok e := by
  have hexpand := congrArg Option.isSome h.expandAll_eq
  rw [Option.isSome_map, h.source_eq] at hexpand
  rw [hexpand]
  cases hlast : lastFormula? lines with
  | none => simp [made]
  | some line =>
    show (Outline.ofSource s.settings (Text.trim line)).toOption.isSome = true ↔ _
    unfold Outline.ofSource
    constructor
    · intro hsome
      cases hparse : Formula.parse (Text.trim line) with
      | error e => rw [hparse] at hsome; cases hsome
      | ok e => exact ⟨line, e, rfl, Formula.parse_trim_eq_ok_iff.mp hparse⟩
    · rintro ⟨_, e, heq, hparse⟩
      cases heq
      rw [Formula.parse_trim_eq_ok_iff.mpr hparse]
      rfl

theorem ofSource_eq (h : Tracks settings lines s) {o : Outline} (ho : s.outline? = some o) :
    ∃ line, lastFormula? lines = some line ∧
      Outline.ofSource s.settings (Text.trim line) = .ok o.expandAll := by
  have hexpand := h.expandAll_eq
  rw [ho, h.source_eq] at hexpand
  cases hlast : lastFormula? lines with
  | none => rw [hlast] at hexpand; cases hexpand
  | some line =>
    rw [hlast] at hexpand
    refine ⟨line, rfl, ?_⟩
    change some o.expandAll = (Outline.ofSource s.settings (Text.trim line)).toOption at hexpand
    cases houtline : Outline.ofSource s.settings (Text.trim line) with
    | error e => rw [houtline] at hexpand; cases hexpand
    | ok p =>
      rw [houtline] at hexpand
      exact congrArg Except.ok (Option.some.inj hexpand).symm

/-- A new session comes to the same with the last formula and the calls opened and closed since. -/
theorem eq_fresh (h : Tracks settings lines s) :
    s = (new s.settings).after ((lastFormula? lines).toList ++ recentFolds lines) := by
  rw [after_append, after_lastFormula?, ← h.source_eq]
  exact h.eq_after

end Tracks

theorem tracks_after (settings : Settings) (lines : List String) :
    Tracks settings lines ((new settings).after lines) := by
  induction lines using List.reverseRecOn with
  | nil => exact ⟨rfl, rfl, rfl, rfl⟩
  | append_singleton lines line ih =>
    rw [after_concat]
    exact ih.handle line

/-- A session never shows an outline that is out of date. -/
theorem never_stale (settings : Settings) (lines : List String) :
    let s := (new settings).after lines
    let current := settingsAfter settings lines
    (s.settings = current ∧ current.dictionary = settings.dictionary) ∧
    (s.outline?.isSome = true ↔
      ∃ line e, lastFormula? lines = some line ∧ Formula.parse line = .ok e) ∧
    (∀ o, s.outline? = some o → ∃ line, lastFormula? lines = some line ∧
      Outline.ofSource current (Text.trim line) = .ok o.expandAll) ∧
    ∀ next, s.handle next =
      ((new current).after ((lastFormula? lines).toList ++ recentFolds lines)).handle next := by
  intro s current
  have htracks : Tracks settings lines s := tracks_after settings lines
  have hsettings : s.settings = current := htracks.settings_eq
  refine ⟨⟨hsettings, dictionary_settingsAfter settings lines⟩, htracks.isSome_outline?_iff, ?_, ?_⟩
  · intro o ho
    rw [← hsettings]
    exact htracks.ofSource_eq ho
  · intro next
    rw [← hsettings, ← htracks.eq_fresh]

/-- A language that does not exist leaves the outline as it is. -/
example : recentFolds ["=F(G(1))", ":fold 1", ":labels off", " :fold 0", ":lang xx", ":blocks"] =
    [" :fold 0"] := by
  cbv

end Session

end FormulaTree
