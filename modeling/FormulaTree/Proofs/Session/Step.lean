import FormulaTree.Proofs.Formula
import FormulaTree.Session.Basic

/-!
# What a command does to a session

A command enters a formula, changes the settings, opens or closes calls of the outline, or leaves
the session as it is. Entering a formula and changing the settings make the outline anew, so that
nothing is left of the one before.
-/

namespace FormulaTree

namespace Command

def isFormula : Command → Bool
  | formula _ => true
  | _ => false

/-- Whether the settings are changed. A code that names nothing changes nothing. -/
def isChange : Command → Bool
  | language code => (Locale.ofCode code).toOption.isSome
  | labels code => (Label.Mode.ofCode code).toOption.isSome
  | _ => false

/-- Whether calls are opened or closed. -/
def isFold : Command → Bool
  | fold _ _ | collapse | expand | header => true
  | _ => false

theorem ofWord_ne_formula (word argument source : String) :
    ofWord word argument ≠ formula source := by
  unfold ofWord
  split <;> exact Command.noConfusion

theorem eq_trim_of_ofLine {line source : String} (h : ofLine line = formula source) :
    source = Text.trim line := by
  unfold ofLine at h
  split at h
  · exact absurd h (ofWord_ne_formula _ _ source)
  · rw [← formula.inj h, String.ofList_toList]

end Command

/-- The settings after a command. -/
def Settings.after (settings : Settings) : Command → Settings
  | .language code =>
    match Locale.ofCode code with
    | .ok locale => { settings with locale }
    | .error _ => settings
  | .labels code =>
    match Label.Mode.ofCode code with
    | .ok mode => { settings with mode }
    | .error _ => settings
  | _ => settings

theorem Settings.after_of_not_isChange (settings : Settings) {c : Command}
    (hc : c.isChange = false) : settings.after c = settings := by
  cases c with
  | language code =>
    dsimp only [Command.isChange] at hc
    dsimp only [Settings.after]
    cases hlocale : Locale.ofCode code with
    | ok locale => rw [hlocale] at hc; cases hc
    | error e => rfl
  | labels code =>
    dsimp only [Command.isChange] at hc
    dsimp only [Settings.after]
    cases hmode : Label.Mode.ofCode code with
    | ok mode => rw [hmode] at hc; cases hc
    | error e => rfl
  | _ => rfl

theorem Settings.dictionary_after (settings : Settings) (c : Command) :
    (settings.after c).dictionary = settings.dictionary := by
  unfold Settings.after
  split
  · split <;> rfl
  · split <;> rfl
  · rfl

/-! ## Opening every call -/

namespace Outline

theorem expandAll_ofBlock (header : String) (root : Block) :
    (ofBlock header root).expandAll = ofBlock header root := rfl

theorem expandAll_setAll (o : Outline) (isOpen : Bool) :
    (o.setAll isOpen).expandAll = o.expandAll := rfl

theorem expandAll_of_setOpen? {o p : Outline} {id : Nat} {isOpen : Bool}
    (h : o.setOpen? id isOpen = some p) : p.expandAll = o.expandAll := by
  unfold setOpen? at h
  split at h
  · cases h
    rfl
  · exact absurd h (by simp)

theorem expandAll_clickHeader (o : Outline) : o.clickHeader.expandAll = o.expandAll := by
  unfold clickHeader
  split
  · rename_i id _ _ _ _
    cases hopen : o.setOpen? id true with
    | none => rfl
    | some p => exact expandAll_of_setOpen? hopen
  · rfl

theorem expandAll_of_ofSource {settings : Settings} {source : String} {o : Outline}
    (h : ofSource settings source = .ok o) : o.expandAll = o := by
  obtain ⟨e, -, rfl⟩ := exists_of_map_eq_ok h
  exact expandAll_ofBlock _ _

end Outline

namespace Session

variable {s : Session} {c : Command}

/-- A session whose outline was just made. -/
def made (settings : Settings) (source? : Option String) : Session :=
  ⟨settings, source?, source?.bind fun source => (Outline.ofSource settings source).toOption⟩

theorem refresh_eq_made {source : String} (hsource : s.source? = some source) :
    s.refresh.2 = made s.settings (some source) := by
  obtain ⟨settings, source?, outline?⟩ := s
  cases hsource
  unfold refresh made
  dsimp only [Option.bind_some]
  cases Outline.ofSource settings source <;> rfl

theorem afterChange_eq_made (note : String) (hs : s.source? = none → s.outline? = none) :
    (s.afterChange note).2 = made s.settings s.source? := by
  unfold afterChange
  cases hsource : s.source? with
  | none =>
    -- Nothing is made anew, and there is nothing to be out of date.
    obtain ⟨settings, source?, outline?⟩ := s
    cases hsource
    cases hs rfl
    rfl
  | some source => exact refresh_eq_made hsource

/-! ## The four kinds of commands -/

theorem run_formula (s : Session) (source : String) :
    (s.run (.formula source)).2 = made s.settings (some source) :=
  refresh_eq_made rfl

theorem run_of_isChange (hc : c.isChange = true) (hs : s.source? = none → s.outline? = none) :
    (s.run c).2 = made (s.settings.after c) s.source? := by
  cases c with
  | language code =>
    dsimp only [Command.isChange] at hc
    dsimp only [run, Settings.after]
    cases hlocale : Locale.ofCode code with
    | ok locale => exact afterChange_eq_made _ hs
    | error e => rw [hlocale] at hc; cases hc
  | labels code =>
    dsimp only [Command.isChange] at hc
    dsimp only [run, Settings.after]
    cases hmode : Label.Mode.ofCode code with
    | ok mode => exact afterChange_eq_made _ hs
    | error e => rw [hmode] at hc; cases hc
  | _ => exact absurd hc Bool.false_ne_true

theorem change_of_expandAll {f : Outline → Outline} (hf : ∀ o, (f o).expandAll = o.expandAll) :
    ∃ outline?, (s.change f).2 = { s with outline? } ∧
      outline?.map Outline.expandAll = s.outline?.map Outline.expandAll := by
  unfold change
  cases houtline : s.outline? with
  | none => exact ⟨s.outline?, rfl, by rw [houtline]⟩
  | some o => exact ⟨some (f o), rfl, congrArg some (hf o)⟩

theorem fold_of_expandAll (action : FoldAction) (id : Nat) :
    ∃ outline?, (s.fold action id).2 = { s with outline? } ∧
      outline?.map Outline.expandAll = s.outline?.map Outline.expandAll := by
  unfold fold
  cases houtline : s.outline? with
  | none => exact ⟨s.outline?, rfl, by rw [houtline]⟩
  | some o =>
    dsimp only
    split
    · rename_i p hfolded
      -- All three actions set one mark.
      refine ⟨some p, rfl, congrArg some ?_⟩
      cases action with
      | fold | unfold | toggle => exact Outline.expandAll_of_setOpen? hfolded
    · exact ⟨s.outline?, rfl, by rw [houtline]⟩

/-- Opening and closing calls keeps the formula, the settings and the outline with every call
open. -/
theorem run_of_isFold (hc : c.isFold = true) :
    ∃ outline?, (s.run c).2 = { s with outline? } ∧
      outline?.map Outline.expandAll = s.outline?.map Outline.expandAll := by
  cases c with
  | fold action argument =>
    unfold run
    dsimp only
    split
    · exact fold_of_expandAll action _
    · exact ⟨s.outline?, rfl, rfl⟩
  | collapse => exact change_of_expandAll fun o => Outline.expandAll_setAll o false
  | expand => exact change_of_expandAll fun o => Outline.expandAll_setAll o true
  | header => exact change_of_expandAll Outline.expandAll_clickHeader
  | _ => exact absurd hc Bool.false_ne_true

theorem run_of_other (hformula : c.isFormula = false) (hchange : c.isChange = false)
    (hfold : c.isFold = false) : (s.run c).2 = s := by
  cases c with
  | formula source => exact absurd hformula (by simp [Command.isFormula])
  | language code =>
    dsimp only [Command.isChange] at hchange
    dsimp only [run]
    cases hlocale : Locale.ofCode code with
    | ok locale => rw [hlocale] at hchange; cases hchange
    | error e => rfl
  | labels code =>
    dsimp only [Command.isChange] at hchange
    dsimp only [run]
    cases hmode : Label.Mode.ofCode code with
    | ok mode => rw [hmode] at hchange; cases hchange
    | error e => rfl
  | fold action argument => exact absurd hfold (by simp [Command.isFold])
  | collapse | expand | header => exact absurd hfold (by simp [Command.isFold])
  | _ => rfl

end Session

end FormulaTree
