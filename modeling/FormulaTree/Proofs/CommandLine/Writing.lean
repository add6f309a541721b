import FormulaTree.CommandLine.Options
import Mathlib

/-!
# Options in writing

A flag is written as a word of its own, and a setting as its name with a value, which stands in the
next argument or is attached. However they are spelled and in whatever order they stand, options are
read as they are meant: words are taken from the front one choice after the other, and choices that
are made for the same options do not interfere. A value is taken as it is, even if it looks like an
option.
-/

namespace FormulaTree.CommandLine

/-! ## The words of options -/

/-- The words that a flag is written as. -/
def Flag.names : Flag → List String
  | inline => ["--inline"]
  | html => ["--html"]
  | collapsed => ["--collapsed"]
  | interactive => ["--repl"]
  | verbose => ["-v", "--verbose"]

/-- The words that have the value of a setting in the argument behind them. -/
def Setting.names : Setting → List String
  | language => ["-l", "--lang"]
  | labels => ["-m", "--labels"]
  | labelFile => ["-t", "--label-table"]
  | formulaFile => ["-f"]

/-- The words that have the value of a setting attached. -/
def Setting.starts : Setting → List String
  | language => ["--lang=", "-l"]
  | labels => ["--labels=", "-m"]
  | labelFile => ["--label-table="]
  | formulaFile => []

/-- The flag that chooses a form. The tree is shown without one. -/
def Form.flag? : Form → Option Flag
  | tree => none
  | inline => some .inline
  | html => some .html

/-- One thing that is chosen by options. -/
inductive Choice where
  | flag (f : Flag)
  | language (locale : Locale)
  | labels (mode : Label.Mode)
  | labelFile (path : String)
  | formulaFile (path : String)
deriving DecidableEq

namespace Choice

def apply (o : Options) : Choice → Options
  | flag f => o.setFlag f
  | language locale => { o with locale := some locale }
  | labels mode => { o with mode }
  | labelFile path => { o with labelFile := some path }
  | formulaFile path => { o with formulaFile := some path }

/-- The setting and its value, unless a flag is chosen. -/
def setting? : Choice → Option (Setting × String)
  | flag _ => none
  | language locale => some (.language, locale.code)
  | labels mode => some (.labels, mode.code)
  | labelFile path => some (.labelFile, path)
  | formulaFile path => some (.formulaFile, path)

/-- The arguments that a choice can be written as. -/
inductive Spelled : Choice → List String → Prop where
  | flag {f : Flag} {name : String} (hname : name ∈ f.names) : Spelled (.flag f) [name]
  | apart {c : Choice} {s : Setting} {value name : String} (h : c.setting? = some (s, value))
    (hname : name ∈ s.names) : Spelled c [name, value]
  | attached {c : Choice} {s : Setting} {value start : String} (h : c.setting? = some (s, value))
    (hstart : start ∈ s.starts) : Spelled c [start ++ value]

end Choice

namespace Options

/-- The settings that are chosen in order to have the options. -/
def settingChoices (o : Options) : List Choice :=
  o.locale.toList.map .language ++ [.labels o.mode] ++ o.labelFile.toList.map .labelFile ++
    o.formulaFile.toList.map .formulaFile

/-- The flags that are chosen in order to have the options. -/
def flagChoices (o : Options) : List Choice :=
  o.form.flag?.toList.map .flag ++ (if o.collapsed then [.flag .collapsed] else []) ++
    (if o.interactive then [.flag .interactive] else []) ++
    (if o.verbose then [.flag .verbose] else [])

/-- What is chosen in order to have the options, apart from the formula. -/
def choices (o : Options) : List Choice :=
  o.settingChoices ++ o.flagChoices

/-- Whether these are the choices for the options, in some order. The label mode that holds without
being chosen may be left out. -/
def ChosenBy (o : Options) (choices : List Choice) : Prop :=
  choices.Perm o.choices ∨ (.labels .auto :: choices).Perm o.choices

/-- The formula in writing, behind a separator. -/
def formulaWords (o : Options) : List String :=
  match o.formula with
  | none => []
  | some text => ["--", text]

/-- Whether the arguments are the options in writing. -/
def WrittenAs (o : Options) (arguments : List String) : Prop :=
  ∃ choices groups, o.ChosenBy choices ∧ List.Forall₂ Choice.Spelled choices groups ∧
    arguments = groups.flatten ++ o.formulaWords

/-- Whether options go together: the formula comes from one place only, and nothing is to be closed
in a form that has nothing to close. -/
structure Consistent (o : Options) : Prop where
  formula_or_file : ¬(o.formula.isSome ∧ o.formulaFile.isSome)
  inline_or_collapsed : ¬(o.form = .inline ∧ o.collapsed)

end Options

/-! ## The parts that words play -/

namespace Argument

/-- The words that play a part as a whole. -/
def fixedWords : List String :=
  ["--", "-h", "--help", "--version", "--inline", "--html", "--collapsed", "--repl", "-v",
   "--verbose", "-l", "--lang", "-m", "--labels", "-t", "--label-table", "-f"]

theorem ofString_eq_ofText {text : String} (h : text ∉ fixedWords) :
    ofString text = ofText text := by
  unfold ofString
  split
  all_goals first | rfl | exact absurd (by decide) h

/-- Nothing but letters and dashes occurs in the words that play a part as a whole. -/
theorem ofString_eq_ofText_of_mem {text : String} {c : Char} (hc : c ∈ text.toList)
    (hletter : c.isAlpha = false) (hdash : c ≠ '-') : ofString text = ofText text := by
  refine ofString_eq_ofText fun hfixed => ?_
  have hwords : ∀ word ∈ fixedWords, ∀ d ∈ word.toList, d.isAlpha = true ∨ d = '-' := by
    simp [fixedWords]
  rcases hwords text hfixed c hc with h | h
  · rw [hletter] at h
    exact absurd h Bool.false_ne_true
  · exact hdash h

theorem after?_append (start value : String) : after? start (start ++ value) = some value := by
  have happend : start.toList ++ value.toList = (start ++ value).toList :=
    String.toList_append.symm
  rw [after?, List.isPrefixOf?_eq_some_iff_append_eq.mpr happend, Option.map_some,
    String.ofList_toList]

theorem ofString_flag {f : Flag} {name : String} (h : name ∈ f.names) :
    ofString name = .flag f := by
  cases f <;> revert name <;> decide

theorem ofString_setting {s : Setting} {name : String} (h : name ∈ s.names) :
    ofString name = .setting s := by
  cases s <;> revert name <;> decide

/-- Whatever the file is called, the word goes on otherwise than those that are tried before. -/
theorem ofString_labelFile (path : String) :
    ofString ("--label-table=" ++ path) = .settingTo .labelFile path := by
  have hlist : ("--label-table=" ++ path).toList =
      ['-', '-', 'l', 'a', 'b', 'e', 'l', '-', 't', 'a', 'b', 'l', 'e', '='] ++ path.toList :=
    String.toList_append
  have hmark : '=' ∈ ("--label-table=" ++ path).toList := by simp [hlist]
  have hlang : after? "--lang=" ("--label-table=" ++ path) = none := by
    rw [after?, hlist]
    rfl
  have hlabels : after? "--labels=" ("--label-table=" ++ path) = none := by
    rw [after?, hlist]
    rfl
  rw [ofString_eq_ofText_of_mem hmark rfl (by decide), ofText, hlang, hlabels, after?_append]

/-- What a value is attached to tells the setting. Apart from the names of files, values are few. -/
theorem ofString_attached {c : Choice} {s : Setting} {value start : String}
    (h : c.setting? = some (s, value)) (hstart : start ∈ s.starts) :
    ofString (start ++ value) = .settingTo s value := by
  cases c with
  | flag f => exact absurd h (by simp [Choice.setting?])
  | language locale =>
    cases h
    revert start
    cases locale <;> decide
  | labels mode =>
    cases h
    revert start
    cases mode <;> decide
  | labelFile path =>
    cases h
    rw [List.mem_singleton.mp hstart]
    exact ofString_labelFile value
  | formulaFile path =>
    cases h
    exact absurd hstart List.not_mem_nil

end Argument

/-! ## Reading one choice after the other -/

namespace Choice

theorem set_eq_apply (o : Options) {c : Choice} {s : Setting} {value : String}
    (h : c.setting? = some (s, value)) : o.set value s = .ok (c.apply o) := by
  cases c with
  | flag f => exact absurd h (by simp [setting?])
  | language locale =>
    cases h
    cases locale <;> rfl
  | labels mode =>
    cases h
    cases mode <;> rfl
  | labelFile path | formulaFile path =>
    cases h
    rfl

end Choice

namespace Invocation

theorem read_spelled {c : Choice} {words : List String} (h : c.Spelled words) (o : Options)
    (rest : List String) : read o (words ++ rest) = read (c.apply o) rest := by
  cases h with
  | flag hname =>
    rw [List.singleton_append, read, Argument.ofString_flag hname]
    rfl
  | apart hsetting hname =>
    rw [List.cons_append, List.singleton_append, read, Argument.ofString_setting hname]
    simp only [c.set_eq_apply o hsetting]
    rfl
  | attached hsetting hstart =>
    rw [List.singleton_append, read, Argument.ofString_attached hsetting hstart]
    simp only [c.set_eq_apply o hsetting]
    rfl

theorem read_groups {choices : List Choice} {groups : List (List String)}
    (h : List.Forall₂ Choice.Spelled choices groups) (o : Options) (rest : List String) :
    read o (groups.flatten ++ rest) = read (choices.foldl Choice.apply o) rest := by
  induction h generalizing o with
  | nil => rfl
  | cons hspelled _ ih =>
    rw [List.flatten_cons, List.append_assoc, read_spelled hspelled, ih]
    rfl

end Invocation

/-! ## The order of choices -/

namespace Options

/-- Whether a choice is one that the options show. -/
def Agrees (o : Options) : Choice → Prop
  | .flag .inline => o.form = .inline
  | .flag .html => o.form = .html
  | .flag .collapsed => o.collapsed = true
  | .flag .interactive => o.interactive = true
  | .flag .verbose => o.verbose = true
  | .language locale => o.locale = some locale
  | .labels mode => o.mode = mode
  | .labelFile path => o.labelFile = some path
  | .formulaFile path => o.formulaFile = some path

theorem agrees_of_mem_choices {o : Options} {c : Choice} (h : c ∈ o.choices) : o.Agrees c := by
  rcases List.mem_append.mp h with h | h
  · simp only [settingChoices, List.mem_append, List.mem_map, List.mem_singleton,
      Option.mem_toList] at h
    rcases h with ((⟨_, hlocale, rfl⟩ | rfl) | ⟨_, hlabels, rfl⟩) | ⟨_, hfile, rfl⟩
    · exact hlocale
    · rfl
    · exact hlabels
    · exact hfile
  · simp only [flagChoices, List.mem_append, List.mem_map, List.mem_singleton,
      List.mem_ite_nil_right, Option.mem_toList] at h
    rcases h with ((⟨f, hform, rfl⟩ | ⟨hcollapsed, rfl⟩) | ⟨hinteractive, rfl⟩) | ⟨hverbose, rfl⟩
    · cases heq : o.form <;> rw [heq] at hform <;> cases hform <;> exact heq
    · exact hcollapsed
    · exact hinteractive
    · exact hverbose

/-- Choices that the same options show may be made in any order. -/
theorem Agrees.comm {o : Options} {c d : Choice} (hc : o.Agrees c) (hd : o.Agrees d)
    (p : Options) : d.apply (c.apply p) = c.apply (d.apply p) := by
  cases c with
  | flag f =>
    cases d with
    | flag g =>
      cases f <;> cases g
      -- Only the two forms set the same field, and the options have one form.
      case inline.html | html.inline => exact absurd (hc.symm.trans hd) (by decide)
      all_goals rfl
    | _ => cases f <;> rfl
  | _ =>
    cases d with
    | flag g => cases g <;> rfl
    -- The same setting twice has the same value, which the options have.
    | _ => first | rfl | (cases hc.symm.trans hd; rfl)

theorem foldl_settingChoices (o : Options) : o.settingChoices.foldl Choice.apply {} =
    { locale := o.locale, mode := o.mode, labelFile := o.labelFile,
      formulaFile := o.formulaFile } := by
  rw [settingChoices]
  cases o.locale <;> cases o.labelFile <;> cases o.formulaFile <;> rfl

theorem foldl_flagChoices (o : Options) {p : Options} (hform : p.form = .tree)
    (hcollapsed : p.collapsed = false) (hinteractive : p.interactive = false)
    (hverbose : p.verbose = false) : o.flagChoices.foldl Choice.apply p =
      { p with
        form := o.form, collapsed := o.collapsed, interactive := o.interactive,
        verbose := o.verbose } := by
  cases p
  subst hform hcollapsed hinteractive hverbose
  rw [flagChoices]
  cases o.form <;> cases o.collapsed <;> cases o.interactive <;> cases o.verbose <;> rfl

theorem foldl_choices (o : Options) :
    o.choices.foldl Choice.apply {} = { o with formula := none } := by
  rw [choices, List.foldl_append, foldl_settingChoices, foldl_flagChoices o rfl rfl rfl rfl]

/-- Neither the order of the choices matters nor whether a mode is chosen that holds anyway. -/
theorem ChosenBy.foldl_eq {o : Options} {choices : List Choice} (h : o.ChosenBy choices) :
    choices.foldl Choice.apply {} = { o with formula := none } := by
  have hperm : ∀ {l : List Choice}, l.Perm o.choices →
      l.foldl Choice.apply {} = { o with formula := none } := by
    intro l hl
    have hagrees : ∀ c ∈ l, o.Agrees c := fun c hc => agrees_of_mem_choices (hl.subset hc)
    rw [← o.foldl_choices]
    exact hl.foldl_eq' (fun c hc d hd p => (hagrees c hc).comm (hagrees d hd) p) _
  rcases h with hall | hauto
  · exact hperm hall
  · -- To choose the mode first changes nothing, since it holds before anything is chosen.
    have hfirst := hperm hauto
    exact hfirst

end Options

/-! ## What is read -/

theorem exists_of_bind_eq_ok {ε α β : Type} {x : Except ε α} {f : α → Except ε β} {b : β}
    (h : (x >>= f) = .ok b) : ∃ a, x = .ok a ∧ f a = .ok b := by
  cases x with
  | error cause => exact absurd h (by simp [bind, Except.bind])
  | ok a => exact ⟨a, rfl, h⟩

theorem Options.check_eq_ok_iff {o p : Options} : o.check = .ok p ↔ o = p ∧ o.Consistent := by
  rw [check]
  split
  · rename_i hboth
    exact ⟨fun h => absurd h (by simp), fun h => absurd hboth h.2.formula_or_file⟩
  · rename_i hone
    split
    · rename_i hinline
      exact ⟨fun h => absurd h (by simp), fun h => absurd hinline h.2.inline_or_collapsed⟩
    · rename_i hshown
      exact ⟨fun h => ⟨Except.ok.inj h, hone, hshown⟩, fun h => congrArg _ h.1⟩

namespace Invocation

theorem read_formulaWords {o : Options} (h : o.Consistent) :
    read { o with formula := none } o.formulaWords = .ok (.run o) := by
  have hcheck : o.check = .ok o := Options.check_eq_ok_iff.mpr ⟨rfl, h⟩
  rw [Options.formulaWords]
  cases hformula : o.formula with
  | none =>
    have hsame : { o with formula := none } = o := by rw [← hformula]
    rw [hsame, read, hcheck]
    rfl
  | some text =>
    have hsame : { o with formula := some text } = o := by rw [← hformula]
    have hmark : Argument.ofString "--" = .separator := rfl
    rw [read, hmark]
    show (do return run (← Options.check { o with formula := some text })) = _
    rw [hsame, hcheck]
    rfl

theorem ofArguments_of_writtenAs {o : Options} (h : o.Consistent) {arguments : List String}
    (hwritten : o.WrittenAs arguments) : ofArguments arguments = .ok (.run o) := by
  obtain ⟨choices, groups, hchosen, hspelled, rfl⟩ := hwritten
  rw [ofArguments, read_groups hspelled, hchosen.foldl_eq, read_formulaWords h]

/-- Every way to an answer leads through the check. -/
theorem consistent_of_read {o p : Options} {arguments : List String}
    (h : read o arguments = .ok (.run p)) : p.Consistent := by
  have hchecked : ∀ {o : Options}, (do return run (← o.check)) = Except.ok (run p) →
      p.Consistent := by
    intro o hrun
    obtain ⟨q, hcheck, hq⟩ := exists_of_bind_eq_ok hrun
    obtain rfl : q = p := run.inj (Except.ok.inj hq)
    obtain ⟨rfl, hconsistent⟩ := Options.check_eq_ok_iff.mp hcheck
    exact hconsistent
  fun_induction read o arguments with
  | case1 o => exact hchecked h
  | case4 o text rest f hpart ih => exact ih h
  | case6 o text s hpart value rest ih | case7 o text rest s value hpart ih
  | case10 o text rest hpart ih =>
    obtain ⟨q, -, hq⟩ := exists_of_bind_eq_ok h
    exact ih q hq
  | case8 o text rest hpart =>
    obtain ⟨q, -, hq⟩ := exists_of_bind_eq_ok h
    exact hchecked hq
  -- Help, the version and errors are no options.
  | case2 | case3 | case5 | case9 => simp at h

end Invocation

theorem Choice.exists_spelled (c : Choice) : ∃ words, c.Spelled words := by
  cases c with
  | flag f =>
    cases f
    all_goals exact ⟨_, .flag List.mem_cons_self⟩
  | _ => exact ⟨_, .apart rfl List.mem_cons_self⟩

theorem Options.exists_writtenAs (o : Options) : ∃ arguments, o.WrittenAs arguments := by
  have hgroups : ∀ choices, ∃ groups, List.Forall₂ Choice.Spelled choices groups := by
    intro choices
    induction choices with
    | nil => exact ⟨[], .nil⟩
    | cons c choices ih =>
      obtain ⟨words, hwords⟩ := c.exists_spelled
      obtain ⟨groups, hgroups⟩ := ih
      exact ⟨words :: groups, .cons hwords hgroups⟩
  obtain ⟨groups, hgroups⟩ := hgroups o.choices
  exact ⟨_, o.choices, groups, .inl (.refl _), hgroups, rfl⟩

/-- Options that go together are read from whatever they are written as, and they can be written.
Others are never read. -/
theorem options_read_back :
    (∀ o : Options, o.Consistent → (∃ arguments, o.WrittenAs arguments) ∧
      ∀ arguments, o.WrittenAs arguments → Invocation.ofArguments arguments = .ok (.run o)) ∧
    ∀ arguments o, Invocation.ofArguments arguments = .ok (.run o) → o.Consistent := by
  refine ⟨fun o ho => ⟨o.exists_writtenAs, fun arguments hwritten => ?_⟩, fun arguments o h => ?_⟩
  · exact Invocation.ofArguments_of_writtenAs ho hwritten
  · exact Invocation.consistent_of_read h

/-- A formula that looks like an option, an empty value, and a mode that need not be chosen. -/
theorem options_read_back_of_lookalikes :
    let o : Options :=
      { formula := some "--help", locale := some .ja, labelFile := some "", form := .html,
        verbose := true }
    let arguments := ["-v", "--label-table=", "-mauto", "--html", "-l", "ja", "--", "--help"]
    o.Consistent ∧ o.WrittenAs arguments ∧ Invocation.ofArguments arguments = .ok (.run o) := by
  intro o arguments
  have ho : o.Consistent := ⟨by decide, by decide⟩
  have hwritten : o.WrittenAs arguments := by
    refine ⟨[.flag .verbose, .labelFile "", .labels .auto, .flag .html, .language .ja],
      [["-v"], ["--label-table=" ++ ""], ["-m" ++ "auto"], ["--html"], ["-l", "ja"]],
      .inl (by decide), ?_, rfl⟩
    refine .cons (.flag (by decide)) (.cons (.attached rfl (by decide)) (.cons ?_ ?_))
    · exact .attached rfl (by decide)
    · exact .cons (.flag (by decide)) (.cons (.apart rfl (by decide)) .nil)
  exact ⟨ho, hwritten, (options_read_back.1 o ho).2 arguments hwritten⟩

end FormulaTree.CommandLine
