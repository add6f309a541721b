import FormulaTree.Proofs.CommandLine.Dictionary

/-!
# What a run comes to

The exit code tells rejected arguments and unreadable formulas from rejected formulas, and nothing
is printed on the output stream unless it is 0. The label dictionary has a say in the labels that
are printed only: a run whose dictionary is of no use prints what it would print without one. This
holds for dictionaries that leave the run its input. The dictionary is read first, and one that is
read from the standard input uses up what a formula would have been read from.
-/

namespace FormulaTree.CommandLine

/-! ## Formulas -/

namespace Options

section

variable (o : Options) (world : World)

/-- The formula that a run reads in a world: as given, from its file, or from the input. -/
def sourceIn : Except ReadFailure String :=
  match o.formula, o.formulaFile with
  | some text, _ => .ok text
  | none, some path => world.read path >>= decodeText
  | none, none => decodeText world.input

/-- Whether a run reads from the standard input, apart from its dictionary. -/
def ReadsInput : Prop :=
  o.interactive = true ∨
    o.formula = none ∧ ∀ path, o.formulaFile = some path → world.file path = .input

/-- Whether the dictionary leaves a run what it reads: what was in the standard input is still
there, if it is read at all. -/
def SparesInput : Prop :=
  o.ReadsInput world → (o.afterDictionary world).input = world.input

/-- A formula is read in the world that is left, whatever the world was before. -/
theorem run_source (world' : World) :
    ((o.source world.surroundings).run world').1 = o.sourceIn world' := by
  rw [source, sourceIn]
  cases o.formula with
  | some text => rfl
  | none => cases o.formulaFile <;> rfl

end

variable {o : Options} {world : World}

/-- A formula is known by its file, and by the input if it is read from there. -/
theorem sourceIn_congr {world' : World}
    (hfile : ∀ path, o.formulaFile = some path → world'.file path = world.file path)
    (hinput : o.ReadsInput world → world'.input = world.input) :
    o.sourceIn world' = o.sourceIn world := by
  unfold sourceIn
  cases hformula : o.formula with
  | some text => rfl
  | none =>
    cases hpath : o.formulaFile with
    | none =>
      have hreads : o.ReadsInput world := .inr ⟨hformula, by simp [hpath]⟩
      show decodeText world'.input = decodeText world.input
      rw [hinput hreads]
    | some path =>
      show world'.read path >>= decodeText = world.read path >>= decodeText
      rw [World.read, World.read, hfile path hpath]
      cases hcontents : world.file path with
      | fixed contents => rfl
      | input =>
        have hreads : o.ReadsInput world := by
          refine .inr ⟨hformula, fun path' hpath' => ?_⟩
          rw [← Option.some.inj (hpath.symm.trans hpath'), hcontents]
        show Except.ok world'.input >>= decodeText = Except.ok world.input >>= decodeText
        rw [hinput hreads]

theorem SparesInput.sourceIn_eq (h : o.SparesInput world) :
    o.sourceIn (o.afterDictionary world) = o.sourceIn world :=
  sourceIn_congr (fun path _ => by rw [file_afterDictionary]) h

end Options

/-! ## Answers -/

/-- What a run answers by, apart from what it reports on the error stream. -/
def Outcome.answer (outcome : Outcome) : Nat × String :=
  (outcome.code, outcome.streams.out)

/-- A formula as the options want it to be shown. -/
def Options.rendering (o : Options) (settings : Settings) (source : String) (e : Expr) : String :=
  let outline := Outline.ofExpr settings (Text.trim source) e
  let shown := if o.collapsed then outline.collapseAll else outline
  match o.form with
  | .inline => e.oneLine
  | .tree => shown.text
  | .html => shown.html

/-- What a conversation prints for all that is left of the input. -/
def conversation (settings : Settings) (world : World) : String :=
  ((Session.new settings).transcript (Session.splitLines [] world.input.toList)).out

theorem Options.render_eq (o : Options) (settings : Settings) (source : String) :
    o.render settings source = (Formula.parse source).map (o.rendering settings source) := by
  unfold render rendering Formula.oneLine Outline.ofSource
  cases o.form <;> cases Formula.parse source <;> rfl

/-- The answer to a formula that was read. -/
def Options.answer (o : Options) (settings : Settings) : Except ReadFailure String → Nat × String
  | .error _ => (1, "")
  | .ok source =>
    match Formula.parse source with
    | .error _ => (2, "")
    | .ok e => (0, o.rendering settings source e ++ "\n")

theorem Options.answer_outcome (o : Options) (settings : Settings) (messages : String)
    (source : Except ReadFailure String) :
    (o.outcome settings messages source).answer = o.answer settings source := by
  cases source with
  | error failure => rfl
  | ok source =>
    simp only [outcome, answer, render_eq]
    cases Formula.parse source <;> rfl

/-- The answer of a run by its settings, and by what it reads after the dictionary. -/
theorem exists_answer_eq (json : Json.Library) {arguments : List String} {o : Options}
    (h : Invocation.ofArguments arguments = .ok (.run o)) (world : World) :
    ∃ settings, o.Configures json world settings ∧
      (world.run json arguments).answer =
        if o.interactive then (0, conversation settings (o.afterDictionary world))
        else o.answer settings (o.sourceIn (o.afterDictionary world)) := by
  obtain ⟨hsettings, hafter⟩ := o.run_settings json world
  refine ⟨_, hsettings, ?_⟩
  rw [World.run, run, h, ← hafter, ← o.run_source world]
  show (StateT.run (if o.interactive then o.converse json world.surroundings
    else o.format json world.surroundings) world).1.answer = _
  cases o.interactive with
  | true => rfl
  | false => exact o.answer_outcome _ _ _

/-- What a run prints, by its settings. -/
theorem exists_settings (json : Json.Library) {arguments : List String} {o : Options}
    (h : Invocation.ofArguments arguments = .ok (.run o)) (world : World) :
    ∃ settings, o.Configures json world settings ∧
      (o.interactive = true →
        (world.run json arguments).streams.out =
          conversation settings (o.afterDictionary world)) ∧
      (o.interactive = false → (world.run json arguments).code = 0 →
        ∃ source e, o.sourceIn (o.afterDictionary world) = .ok source ∧
          Formula.parse source = .ok e ∧
          (world.run json arguments).streams.out = o.rendering settings source e ++ "\n") := by
  obtain ⟨settings, hsettings, hanswer⟩ := exists_answer_eq json h world
  refine ⟨settings, hsettings, fun hinteractive => ?_, fun hinteractive hcode => ?_⟩
  · rw [if_pos hinteractive] at hanswer
    exact congrArg Prod.snd hanswer
  · rw [hinteractive, if_neg Bool.false_ne_true] at hanswer
    have hzero : (o.answer settings (o.sourceIn (o.afterDictionary world))).1 = 0 :=
      (congrArg Prod.fst hanswer).symm.trans hcode
    cases hsource : o.sourceIn (o.afterDictionary world) with
    | error failure => simp [hsource, Options.answer] at hzero
    | ok source =>
      cases hparse : Formula.parse source with
      | error e => simp [hsource, hparse, Options.answer] at hzero
      | ok e =>
        rw [hsource, Options.answer, hparse] at hanswer
        exact ⟨source, e, rfl, hparse, congrArg Prod.snd hanswer⟩

/-! ## Exit codes -/

/-- Everything that a run can come to, but for what it prints when its code is 0. -/
inductive ComesTo (arguments : List String) (world : World) : Nat × String → Prop where
  | rejected {e : UsageError} (h : Invocation.ofArguments arguments = .error e) :
    ComesTo arguments world (1, "")
  | help (h : Invocation.ofArguments arguments = .ok .help) (out : String) :
    ComesTo arguments world (0, out)
  | version (h : Invocation.ofArguments arguments = .ok .version) (out : String) :
    ComesTo arguments world (0, out)
  | conversed {o : Options} (h : Invocation.ofArguments arguments = .ok (.run o))
    (hinteractive : o.interactive = true) (out : String) : ComesTo arguments world (0, out)
  | unreadable {o : Options} {failure : ReadFailure}
    (h : Invocation.ofArguments arguments = .ok (.run o)) (hinteractive : o.interactive = false)
    (hsource : o.sourceIn (o.afterDictionary world) = .error failure) :
    ComesTo arguments world (1, "")
  | noFormula {o : Options} {source : String} {e : FormulaError}
    (h : Invocation.ofArguments arguments = .ok (.run o)) (hinteractive : o.interactive = false)
    (hsource : o.sourceIn (o.afterDictionary world) = .ok source)
    (hparse : Formula.parse source = .error e) : ComesTo arguments world (2, "")
  | formatted {o : Options} {source : String} {e : Expr}
    (h : Invocation.ofArguments arguments = .ok (.run o)) (hinteractive : o.interactive = false)
    (hsource : o.sourceIn (o.afterDictionary world) = .ok source)
    (hparse : Formula.parse source = .ok e) (out : String) : ComesTo arguments world (0, out)

theorem comesTo_run (json : Json.Library) (arguments : List String) (world : World) :
    ComesTo arguments world (world.run json arguments).answer := by
  cases h : Invocation.ofArguments arguments with
  | error e =>
    rw [World.run, run, h]
    exact .rejected h
  | ok invocation =>
    cases invocation with
    | help =>
      rw [World.run, run, h]
      exact .help h _
    | version =>
      rw [World.run, run, h]
      exact .version h _
    | run o =>
      obtain ⟨settings, -, hanswer⟩ := exists_answer_eq json h world
      rw [hanswer]
      cases hinteractive : o.interactive with
      | true => exact .conversed h hinteractive _
      | false =>
        rw [if_neg Bool.false_ne_true]
        cases hsource : o.sourceIn (o.afterDictionary world) with
        | error failure => exact .unreadable h hinteractive hsource
        | ok source =>
          rw [Options.answer]
          cases hparse : Formula.parse source with
          | error e => exact .noFormula h hinteractive hsource hparse
          | ok e => exact .formatted h hinteractive hsource hparse _

/-- Whether a formula is read and rejected. -/
def RejectsFormula (arguments : List String) (world : World) : Prop :=
  ∃ o source e, Invocation.ofArguments arguments = .ok (.run o) ∧ o.interactive = false ∧
    o.sourceIn (o.afterDictionary world) = .ok source ∧ Formula.parse source = .error e

/-- Whether there is nothing to format: the arguments are rejected or no formula can be read. -/
def LacksFormula (arguments : List String) (world : World) : Prop :=
  (∃ e, Invocation.ofArguments arguments = .error e) ∨
  ∃ o failure, Invocation.ofArguments arguments = .ok (.run o) ∧ o.interactive = false ∧
    o.sourceIn (o.afterDictionary world) = .error failure

namespace ComesTo

variable {arguments : List String} {world : World} {answer : Nat × String}

theorem code_eq_two_iff (h : ComesTo arguments world answer) :
    answer.1 = 2 ↔ RejectsFormula arguments world := by
  unfold RejectsFormula
  cases h with
  | noFormula h hinteractive hsource hparse =>
    exact ⟨fun _ => ⟨_, _, _, h, hinteractive, hsource, hparse⟩, fun _ => rfl⟩
  -- The arguments and the formula lead to one answer only.
  | _ => simp_all

theorem code_eq_one_iff (h : ComesTo arguments world answer) :
    answer.1 = 1 ↔ LacksFormula arguments world := by
  unfold LacksFormula
  cases h with
  | rejected h => exact ⟨fun _ => .inl ⟨_, h⟩, fun _ => rfl⟩
  | unreadable h hinteractive hsource =>
    exact ⟨fun _ => .inr ⟨_, _, h, hinteractive, hsource⟩, fun _ => rfl⟩
  | _ => simp_all

theorem code_le_two (h : ComesTo arguments world answer) : answer.1 ≤ 2 := by
  cases h <;> simp

theorem out_eq_empty (h : ComesTo arguments world answer) (hcode : answer.1 ≠ 0) :
    answer.2 = "" := by
  cases h with
  | rejected _ | unreadable _ _ _ | noFormula _ _ _ _ => rfl
  | help _ _ | version _ _ | conversed _ _ _ | formatted _ _ _ _ _ => exact absurd rfl hcode

end ComesTo

/-! ## Runs that differ in their dictionaries -/

/-- Whether two runs read the same formula in the same way, and their dictionaries leave it to them.
The dictionaries may differ, and so may the environments and what other files hold. A conversation
reads no formula. -/
structure SameFormula (arguments arguments' : List String) (world world' : World) : Prop where
  invocation_eq : (Invocation.ofArguments arguments).map Invocation.withoutLabelFile =
    (Invocation.ofArguments arguments').map Invocation.withoutLabelFile
  input_eq : world.input = world'.input
  file_eq : ∀ o path, Invocation.ofArguments arguments = .ok (.run o) →
    o.formulaFile = some path → world.file path = world'.file path
  spares : ∀ o, Invocation.ofArguments arguments = .ok (.run o) → o.interactive = false →
    o.SparesInput world
  spares' : ∀ o, Invocation.ofArguments arguments' = .ok (.run o) → o.interactive = false →
    o.SparesInput world'

namespace SameFormula

variable {arguments arguments' : List String} {world world' : World}

theorem symm (h : SameFormula arguments arguments' world world') :
    SameFormula arguments' arguments world' world where
  invocation_eq := h.invocation_eq.symm
  input_eq := h.input_eq.symm
  file_eq := by
    intro o' path ho' hpath
    obtain ⟨o, ho, heq⟩ := exists_run h.invocation_eq.symm ho'
    have hfile : o.formulaFile = o'.formulaFile := congrArg (fun o => o.formulaFile) heq
    exact (h.file_eq o path ho (hfile.trans hpath)).symm
  spares := h.spares'
  spares' := h.spares

/-- The other run has the same options but for the dictionary, and reads the same. -/
theorem exists_run (h : SameFormula arguments arguments' world world') {o : Options}
    (ho : Invocation.ofArguments arguments = .ok (.run o)) (hinteractive : o.interactive = false) :
    ∃ o', Invocation.ofArguments arguments' = .ok (.run o') ∧ o'.interactive = false ∧
      o'.sourceIn (o'.afterDictionary world') = o.sourceIn (o.afterDictionary world) := by
  obtain ⟨o', ho', heq⟩ := CommandLine.exists_run h.invocation_eq ho
  have hinteractive' : o'.interactive = false :=
    (congrArg (fun o => o.interactive) heq).trans hinteractive
  refine ⟨o', ho', hinteractive', ?_⟩
  calc o'.sourceIn (o'.afterDictionary world')
    _ = o'.sourceIn world' := (h.spares' o' ho' hinteractive').sourceIn_eq
    _ = o.sourceIn world' := congrArg (fun o => o.sourceIn world') heq
    _ = o.sourceIn world := Options.sourceIn_congr
      (fun path hpath => (h.file_eq o path ho hpath).symm) fun _ => h.input_eq.symm
    _ = o.sourceIn (o.afterDictionary world) := (h.spares o ho hinteractive).sourceIn_eq.symm

theorem rejectsFormula (h : SameFormula arguments arguments' world world')
    (hrejects : RejectsFormula arguments world) : RejectsFormula arguments' world' := by
  obtain ⟨o, source, e, ho, hinteractive, hsource, hparse⟩ := hrejects
  obtain ⟨o', ho', hinteractive', hsource'⟩ := h.exists_run ho hinteractive
  exact ⟨o', source, e, ho', hinteractive', hsource'.trans hsource, hparse⟩

theorem lacksFormula (h : SameFormula arguments arguments' world world')
    (hlacks : LacksFormula arguments world) : LacksFormula arguments' world' := by
  rcases hlacks with ⟨e, he⟩ | ⟨o, failure, ho, hinteractive, hsource⟩
  · left
    have heq := h.invocation_eq
    rw [he] at heq
    cases h' : Invocation.ofArguments arguments' with
    | error e' => exact ⟨e', rfl⟩
    | ok invocation =>
      rw [h'] at heq
      exact absurd heq (by simp [Except.map])
  · right
    obtain ⟨o', ho', hinteractive', hsource'⟩ := h.exists_run ho hinteractive
    exact ⟨o', failure, ho', hinteractive', hsource'.trans hsource⟩

theorem code_eq (h : SameFormula arguments arguments' world world') (json json' : Json.Library) :
    (world.run json arguments).code = (world'.run json' arguments').code := by
  have hrun := comesTo_run json arguments world
  have hrun' := comesTo_run json' arguments' world'
  -- What decides on the code is the same in both runs.
  have htwo : (world.run json arguments).code = 2 ↔ (world'.run json' arguments').code = 2 :=
    hrun.code_eq_two_iff.trans (Iff.trans ⟨h.rejectsFormula, h.symm.rejectsFormula⟩
      hrun'.code_eq_two_iff.symm)
  have hone : (world.run json arguments).code = 1 ↔ (world'.run json' arguments').code = 1 :=
    hrun.code_eq_one_iff.trans (Iff.trans ⟨h.lacksFormula, h.symm.lacksFormula⟩
      hrun'.code_eq_one_iff.symm)
  have hle : (world.run json arguments).code ≤ 2 := hrun.code_le_two
  have hle' : (world'.run json' arguments').code ≤ 2 := hrun'.code_le_two
  omega

end SameFormula

/-- A dictionary that is of no use is as good as none. -/
theorem answer_of_unusable (json : Json.Library) {arguments : List String} {world : World}
    {o : Options} {path : String} (ho : Invocation.ofArguments arguments = .ok (.run o))
    (hnames : o.NamesDictionary world.env path) (hunusable : Unusable json world path)
    (hspares : o.SparesInput world) :
    (world.run json arguments).answer =
      (world.withoutLabelVariable.run json (dropLabelFiles arguments)).answer := by
  have ho' : Invocation.ofArguments (dropLabelFiles arguments) = .ok (.run o.withoutLabelFile) := by
    rw [Invocation.ofArguments_dropLabelFiles, ho]
    rfl
  obtain ⟨settings, hsettings, hanswer⟩ := exists_answer_eq json ho world
  obtain ⟨bare, hbare, hanswer'⟩ := exists_answer_eq json ho' world.withoutLabelVariable
  obtain rfl := hsettings.eq_of_unusable hbare hnames hunusable
  have hafter : o.withoutLabelFile.afterDictionary world.withoutLabelVariable =
      world.withoutLabelVariable := by
    rw [Options.afterDictionary, Options.labelPath?_withoutLabelFile]
  have hinteractive' : o.withoutLabelFile.interactive = o.interactive := rfl
  rw [hanswer, hanswer', hafter, hinteractive']
  -- The settings are the same, and nothing else tells the dictionary.
  cases hinteractive : o.interactive with
  | true =>
    rw [if_pos rfl, if_pos rfl, conversation, hspares (.inl hinteractive)]
    rfl
  | false =>
    rw [if_neg Bool.false_ne_true, if_neg Bool.false_ne_true, hspares.sourceIn_eq]
    rfl

/-- The outcome of every run: the exit code tells what became of the formula, nothing but an answer
is printed, and it is printed by the dictionary that the run names. As long as the dictionary leaves
the run its input, it has no say in the code, nor in what is printed if it is of no use. -/
theorem run_outcome (json : Json.Library) (arguments : List String) (world : World) :
    let outcome := world.run json arguments
    (outcome.code = 2 ↔ RejectsFormula arguments world) ∧
    (outcome.code = 1 ↔ LacksFormula arguments world) ∧
    (outcome.code = 0 ∨ outcome.code = 1 ∨ outcome.code = 2) ∧
    (outcome.code ≠ 0 → outcome.streams.out = "") ∧
    (∀ o, Invocation.ofArguments arguments = .ok (.run o) →
      ∃ settings, o.Configures json world settings ∧
        (o.interactive = true →
          outcome.streams.out = conversation settings (o.afterDictionary world)) ∧
        (o.interactive = false → outcome.code = 0 →
          ∃ source e, o.sourceIn (o.afterDictionary world) = .ok source ∧
            Formula.parse source = .ok e ∧
            outcome.streams.out = o.rendering settings source e ++ "\n")) ∧
    (∀ json' arguments' world', SameFormula arguments arguments' world world' →
      (world'.run json' arguments').code = outcome.code) ∧
    ∀ o path, Invocation.ofArguments arguments = .ok (.run o) →
      o.NamesDictionary world.env path → Unusable json world path → o.SparesInput world →
        let bare := world.withoutLabelVariable.run json (dropLabelFiles arguments)
        outcome.code = bare.code ∧ outcome.streams.out = bare.streams.out := by
  intro outcome
  have hrun : ComesTo arguments world outcome.answer := comesTo_run json arguments world
  have hle : outcome.code ≤ 2 := hrun.code_le_two
  refine ⟨hrun.code_eq_two_iff, hrun.code_eq_one_iff, by omega, hrun.out_eq_empty, ?_, ?_, ?_⟩
  · exact fun o ho => exists_settings json ho world
  · exact fun json' arguments' world' h => (h.code_eq json json').symm
  · exact fun o path ho hnames hunusable hspares =>
      Prod.mk.inj (answer_of_unusable json ho hnames hunusable hspares)

theorem run_outcome_of_array :
    let arguments := ["-len", "-t", "labels.json", "=SUM(1)"]
    let file (path : String) : File :=
      .fixed (if path = "labels.json" then .ok "[]".toUTF8 else .error .missing)
    let world : World := ⟨fun _ => none, file, .empty⟩
    (world.run Json.library arguments).answer = (0, "SUM(\n| arg1            1\n)\n") := by
  intro arguments file world
  let o : Options := { formula := "=SUM(1)", locale := some .en, labelFile := "labels.json" }
  have ho : Invocation.ofArguments arguments = .ok (.run o) := by cbv
  have hread : world.read "labels.json" >>= decodeText = .ok "[]" := decodeText_toUTF8 "[]"
  have hparse : Json.library.parse "[]" = .ok (.array []) := by cbv
  have hunusable : Unusable Json.library world "labels.json" :=
    .inr ⟨"[]", hread, .inr ⟨_, hparse, fun members h => Json.noConfusion h⟩⟩
  have hspares : o.SparesInput world := fun _ => rfl
  have hbare : (world.withoutLabelVariable.run Json.library (dropLabelFiles arguments)).answer =
      (0, "SUM(\n| arg1            1\n)\n") := by cbv
  obtain ⟨-, -, -, -, -, -, hnone⟩ := run_outcome Json.library arguments world
  obtain ⟨hcode, hout⟩ := hnone o "labels.json" ho (.inl rfl) hunusable hspares
  rw [← hbare]
  exact Prod.ext hcode hout

/-- A dictionary that is read from the standard input is of no use as it is a formula, but it is not
as good as none: nothing is left to be formatted. -/
theorem answer_of_input_as_dictionary :
    let arguments := ["-t", "/dev/stdin"]
    let file (path : String) : File :=
      if path = "/dev/stdin" then .input else .fixed (.error .missing)
    let world : World := ⟨fun _ => none, file, "=1".toUTF8⟩
    let bare := world.withoutLabelVariable.run Json.library (dropLabelFiles arguments)
    Unusable Json.library world "/dev/stdin" ∧
      (world.run Json.library arguments).answer = (2, "") ∧ bare.answer = (0, "1\n") := by
  intro arguments file world bare
  let o : Options := { labelFile := "/dev/stdin" }
  have ho : Invocation.ofArguments arguments = .ok (.run o) := by cbv
  have hfile : world.file "/dev/stdin" = .input := by simp only [world, file, if_pos]
  have hread : world.read "/dev/stdin" >>= decodeText = .ok "=1" := by
    have hinput : world.read "/dev/stdin" = .ok "=1".toUTF8 := by rw [World.read, hfile]
    rw [hinput]
    exact decodeText_toUTF8 "=1"
  have hparse : Json.library.parse "=1" = .error "it does not hold exactly one value" := by cbv
  refine ⟨.inr ⟨"=1", hread, .inl ⟨_, hparse⟩⟩, ?_, ?_⟩
  · have hafter : o.afterDictionary world = world.drained := by
      show world.afterReading "/dev/stdin" = _
      rw [World.afterReading, hfile]
    have hsource : o.sourceIn (o.afterDictionary world) = .ok "" := by
      rw [hafter]
      exact decodeText_toUTF8 ""
    have hrun := comesTo_run Json.library arguments world
    have hcode : (world.run Json.library arguments).answer.1 = 2 :=
      hrun.code_eq_two_iff.mpr ⟨o, "", _, ho, rfl, hsource, by cbv⟩
    exact Prod.ext hcode (hrun.out_eq_empty (by rw [hcode]; decide))
  · have ho' : Invocation.ofArguments (dropLabelFiles arguments) = .ok (.run {}) := by cbv
    obtain ⟨settings, -, hanswer⟩ := exists_answer_eq Json.library ho' world.withoutLabelVariable
    have hsource : Options.sourceIn {} (Options.afterDictionary {} world.withoutLabelVariable) =
        .ok "=1" := decodeText_toUTF8 "=1"
    have hformula : Formula.parse "=1" = .ok (.number "1") := by cbv
    rw [show bare.answer = _ from hanswer, hsource, Options.answer, hformula]
    rfl

end FormulaTree.CommandLine
