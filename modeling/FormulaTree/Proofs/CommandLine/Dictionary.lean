import FormulaTree.CommandLine.World
import FormulaTree.Proofs.Label.Document
import Mathlib

/-!
# The dictionary of a run

A run reads its dictionary before anything else, from the file that its arguments or the environment
name. `Options.run_settings` says what the settings of the run are after that, and what is left of
the world. The same run without a dictionary is the one for the arguments that do not name one, in a
world whose environment does not name one either.
-/

namespace FormulaTree.CommandLine

/-! ## Runs without a dictionary -/

def Options.withoutLabelFile (o : Options) : Options :=
  { o with labelFile := none }

def Invocation.withoutLabelFile : Invocation → Invocation
  | .run o => .run o.withoutLabelFile
  | .help => .help
  | .version => .version

/-- The arguments without those that name a label dictionary. -/
def dropLabelFiles : List String → List String
  | [] => []
  | text :: rest =>
    match Argument.ofString text with
    | .setting .labelFile =>
      match rest with
      | [] => [text]
      | _ :: rest => dropLabelFiles rest
    | .setting _ =>
      match rest with
      | [] => [text]
      | value :: rest => text :: value :: dropLabelFiles rest
    | .settingTo .labelFile _ => dropLabelFiles rest
    | .settingTo _ _ | .flag _ | .formula => text :: dropLabelFiles rest
    -- Nothing behind these is an option.
    | .help | .version | .separator | .unknown => text :: rest

/-- The surroundings with no dictionary named in the environment. -/
def World.withoutLabelVariable (world : World) : World :=
  { world with env := fun name => if name = labelVariable then none else world.env name }

namespace Options

variable (o : Options) (text : String)

theorem setFlag_withoutLabelFile (f : Flag) :
    o.withoutLabelFile.setFlag f = (o.setFlag f).withoutLabelFile := by
  cases f <;> rfl

theorem set_withoutLabelFile {s : Setting} (hs : s ≠ .labelFile) :
    o.withoutLabelFile.set text s = (o.set text s).map withoutLabelFile := by
  cases s with
  | language =>
    rw [set, set]
    cases Locale.ofCode text <;> rfl
  | labels =>
    rw [set, set]
    cases Label.Mode.ofCode text <;> rfl
  | labelFile => exact absurd rfl hs
  | formulaFile => rfl

theorem setFormula_withoutLabelFile :
    o.withoutLabelFile.setFormula text = (o.setFormula text).map withoutLabelFile := by
  rw [setFormula, setFormula, withoutLabelFile]
  split <;> rfl

theorem check_withoutLabelFile :
    o.withoutLabelFile.check = o.check.map withoutLabelFile := by
  rw [check, check, withoutLabelFile]
  split
  · rfl
  · split <;> rfl

theorem afterSeparator_withoutLabelFile (rest : List String) :
    o.withoutLabelFile.afterSeparator rest = (o.afterSeparator rest).map withoutLabelFile := by
  match rest with
  | [] => rfl
  | [text] => exact o.setFormula_withoutLabelFile text
  | text :: extra :: _ =>
    rw [afterSeparator, afterSeparator, setFormula_withoutLabelFile]
    cases o.setFormula text <;> rfl

end Options

/-- Options that name a dictionary play no part in how the others are read. -/
theorem Invocation.read_dropLabelFiles (o : Options) (arguments : List String) :
    read o.withoutLabelFile (dropLabelFiles arguments) =
      (read o arguments).map withoutLabelFile := by
  fun_induction dropLabelFiles arguments generalizing o with
  | case1 =>
    rw [read, read, Options.check_withoutLabelFile]
    cases o.check <;> rfl
  | case2 text hpart | case4 text s hs hpart =>
    simp only [read, hpart]
    rfl
  | case3 text hpart value rest ih | case6 text rest value hpart ih =>
    simp only [read, hpart]
    -- Without a dictionary the options stay as they are.
    exact ih { o with labelFile := some value }
  | case5 text s hs hpart value rest ih =>
    simp only [read, hpart, o.set_withoutLabelFile value hs]
    cases o.set value s with
    | error e => rfl
    | ok o => exact ih o
  | case7 text rest s value hs hpart ih =>
    simp only [read, hpart, o.set_withoutLabelFile value hs]
    cases o.set value s with
    | error e => rfl
    | ok o => exact ih o
  | case8 text rest f hpart ih =>
    simp only [read, hpart, o.setFlag_withoutLabelFile]
    exact ih _
  | case9 text rest hpart ih =>
    simp only [read, hpart, o.setFormula_withoutLabelFile]
    cases o.setFormula text with
    | error e => rfl
    | ok o => exact ih o
  | case12 text rest hpart =>
    simp only [read, hpart, o.afterSeparator_withoutLabelFile]
    cases o.afterSeparator rest with
    | error e => rfl
    | ok o =>
      show (do return run (← o.withoutLabelFile.check)) = _
      rw [o.check_withoutLabelFile]
      show _ = Except.map withoutLabelFile (do return run (← o.check))
      cases o.check <;> rfl
  | case10 text rest hpart | case11 text rest hpart | case13 text rest hpart =>
    simp only [read, hpart]
    rfl

theorem Invocation.ofArguments_dropLabelFiles (arguments : List String) :
    ofArguments (dropLabelFiles arguments) = (ofArguments arguments).map withoutLabelFile :=
  read_dropLabelFiles {} arguments

/-- Where invocations are the same but for the dictionary, so are their options. -/
theorem exists_run {arguments arguments' : List String} {o : Options}
    (h : (Invocation.ofArguments arguments).map Invocation.withoutLabelFile =
      (Invocation.ofArguments arguments').map Invocation.withoutLabelFile)
    (ho : Invocation.ofArguments arguments = .ok (.run o)) :
    ∃ o', Invocation.ofArguments arguments' = .ok (.run o') ∧
      o'.withoutLabelFile = o.withoutLabelFile := by
  rw [ho] at h
  cases h' : Invocation.ofArguments arguments' with
  | error e =>
    rw [h'] at h
    exact absurd h (by simp [Except.map])
  | ok invocation =>
    rw [h'] at h
    cases invocation with
    | run o' => exact ⟨o', rfl, (Invocation.run.inj (Except.ok.inj h)).symm⟩
    | help | version => exact absurd (Except.ok.inj h) (by simp [Invocation.withoutLabelFile])

/-! ## Dictionaries -/

section

variable (json : Json.Library) (o : Options) (world : World)

/-- Whether the dictionary of a run is in the file at `path`: the path is given, or else it is in
the environment, where an empty one counts for nothing. -/
def Options.NamesDictionary (env : String → Option String) (path : String) : Prop :=
  o.labelFile = some path ∨
    o.labelFile = none ∧ env "FORMULA_OUTLINE_LABELS" = some path ∧ path ≠ ""

/-- Whether no dictionary can be had from a file: it cannot be read as text, or the text is not
JSON, or the JSON is not an object. -/
def Unusable (path : String) : Prop :=
  (∃ failure, world.read path >>= decodeText = .error failure) ∨
  ∃ text, world.read path >>= decodeText = .ok text ∧
    ((∃ reason, json.parse text = .error reason) ∨
      ∃ value, json.parse text = .ok value ∧ ∀ members, value ≠ .object members)

/-- Whether `settings` are those of a run. Its dictionary is told by the object in the file that is
named; without a file, or with one that is of no use, it has no entries. -/
structure Options.Configures (settings : Settings) : Prop where
  locale_eq : settings.locale = o.localeIn world.env
  mode_eq : settings.mode = o.mode
  eq_empty : (∀ path, ¬ o.NamesDictionary world.env path) → settings.dictionary = .empty
  eq_empty_of_unusable : ∀ path, o.NamesDictionary world.env path → Unusable json world path →
    settings.dictionary = .empty
  holds : ∀ path text members, o.NamesDictionary world.env path →
    world.read path >>= decodeText = .ok text → json.parse text = .ok (.object members) →
    Json.Ordered (.object members) → settings.dictionary.Holds members

/-- The world after a run has read its dictionary. -/
def Options.afterDictionary : World :=
  match o.labelPath? world.env with
  | none => world
  | some path => world.afterReading path

end

section

variable {json : Json.Library} {o : Options} {world : World}

theorem Options.labelPath?_eq_some_iff {env : String → Option String} {path : String} :
    o.labelPath? env = some path ↔ o.NamesDictionary env path := by
  unfold labelPath? NamesDictionary
  cases o.labelFile with
  | some path' => simp
  | none => simp [labelVariable]

/-- What is loaded from a file. -/
def loaded (json : Json.Library) (world : World) (path : String) :
    Except Label.DocumentError (Label.Dictionary × List Note) :=
  match world.read path >>= decodeText with
  | .ok text => Label.Dictionary.ofDocument json text
  | .error failure => .error (.unreadable path failure)

theorem loaded_of_unusable {path : String} (h : Unusable json world path) :
    ∃ e, loaded json world path = .error e := by
  rw [loaded]
  rcases h with ⟨failure, hread⟩ | ⟨text, hread, hparse⟩
  · rw [hread]
    exact ⟨_, rfl⟩
  · rw [hread]
    show ∃ e, Label.Dictionary.ofDocument json text = .error e
    rw [Label.Dictionary.ofDocument]
    rcases hparse with ⟨reason, hparse⟩ | ⟨value, hparse, hobject⟩
    · rw [hparse]
      exact ⟨_, rfl⟩
    · rw [hparse]
      cases value with
      | object members => exact absurd rfl (hobject members)
      | _ => exact ⟨_, rfl⟩

theorem loaded_of_object {path text : String} {members : List (String × Json)}
    (hread : world.read path >>= decodeText = .ok text)
    (hparse : json.parse text = .ok (.object members)) :
    loaded json world path = .ok (Label.Dictionary.ofMembers json members) := by
  rw [loaded, hread]
  show Label.Dictionary.ofDocument json text = _
  rw [Label.Dictionary.ofDocument, hparse]

theorem run_load (json : Json.Library) (world : World) (path : String) :
    (Label.Dictionary.load json world.surroundings.file path).run world =
      (loaded json world path, world.afterReading path) := by
  show (match world.read path >>= decodeText with
    | .ok text => pure (Label.Dictionary.ofDocument json text)
    | .error failure => pure (.error (.unreadable path failure)) : StateM World _)
      (world.afterReading path) = _
  rw [loaded]
  cases world.read path >>= decodeText <;> rfl

end

/-! ## Settings -/

namespace Options

section

variable {json : Json.Library} {o : Options} {world : World} {path : String}

/-- A run has no entries if it has nothing to load. -/
theorem configures_empty
    (h : ∀ path, o.labelPath? world.env = some path → ∃ e, loaded json world path = .error e) :
    o.Configures json world ⟨o.localeIn world.env, o.mode, .empty⟩ where
  locale_eq := rfl
  mode_eq := rfl
  eq_empty _ := rfl
  eq_empty_of_unusable _ _ _ := rfl
  holds path text members hnames hread hparse _ := by
    obtain ⟨e, hload⟩ := h path (labelPath?_eq_some_iff.mpr hnames)
    exact absurd (hload.symm.trans (loaded_of_object hread hparse)) (by simp)

theorem NamesDictionary.path_eq {env : String → Option String} {path' : String}
    (hpath : o.labelPath? env = some path) (h : o.NamesDictionary env path') : path' = path :=
  Option.some.inj ((labelPath?_eq_some_iff.mpr h).symm.trans hpath)

theorem configures_of_ok {d : Label.Dictionary} {notes : List Note}
    (hpath : o.labelPath? world.env = some path) (hload : loaded json world path = .ok (d, notes)) :
    o.Configures json world ⟨o.localeIn world.env, o.mode, d⟩ where
  locale_eq := rfl
  mode_eq := rfl
  eq_empty hnone := absurd (labelPath?_eq_some_iff.mp hpath) (hnone path)
  eq_empty_of_unusable path' hnames h := by
    obtain rfl := hnames.path_eq hpath
    obtain ⟨e, he⟩ := loaded_of_unusable h
    exact absurd (he.symm.trans hload) (by simp)
  holds path' text members hnames hread hparse hmembers := by
    obtain rfl := hnames.path_eq hpath
    have hresult := Except.ok.inj (hload.symm.trans (loaded_of_object hread hparse))
    obtain rfl : d = (Label.Dictionary.ofMembers json members).1 := congrArg Prod.fst hresult
    exact Label.Dictionary.holds_ofMembers hmembers

end

variable (json : Json.Library) (o : Options) (world : World)

/-- The settings of a run, and the world after them. -/
theorem run_settings :
    o.Configures json world ((o.settings json world.surroundings).run world).1.1 ∧
      ((o.settings json world.surroundings).run world).2 = o.afterDictionary world := by
  suffices h :
      o.Configures json world ⟨o.localeIn world.env, o.mode,
        ((o.dictionary json world.surroundings).run world).1.1⟩ ∧
      ((o.dictionary json world.surroundings).run world).2 = o.afterDictionary world from h
  have henv : world.surroundings.env = world.env := rfl
  rw [dictionary, afterDictionary, henv]
  cases hpath : o.labelPath? world.env with
  | none => exact ⟨configures_empty (by simp [hpath]), rfl⟩
  | some path =>
    simp only [StateT.run_bind, run_load]
    cases hload : loaded json world path with
    | error e =>
      refine ⟨configures_empty fun path' hpath' => ?_, rfl⟩
      obtain rfl : path = path' := Option.some.inj (hpath.symm.trans hpath')
      exact ⟨e, hload⟩
    | ok result => exact ⟨configures_of_ok hpath hload, rfl⟩

theorem file_afterDictionary :
    (o.afterDictionary world).file = world.file := by
  unfold afterDictionary
  cases o.labelPath? world.env with
  | none => rfl
  | some path =>
    show (world.afterReading path).file = world.file
    unfold World.afterReading
    cases world.file path <;> rfl

/-- The language of the environment is not named by the variable of the dictionary. -/
theorem localeIn_withoutLabelFile (o : Options) (world : World) :
    o.withoutLabelFile.localeIn world.withoutLabelVariable.env = o.localeIn world.env := by
  have hnames : ∀ name ∈ Locale.environmentNames, name ≠ labelVariable := by decide
  have henv : Locale.environmentNames.filterMap world.withoutLabelVariable.env =
      Locale.environmentNames.filterMap world.env := by
    apply List.filterMap_congr
    intro name hname
    exact if_neg (hnames name hname)
  rw [localeIn, localeIn, Locale.ofEnvironment, Locale.ofEnvironment, henv]
  rfl

theorem labelPath?_withoutLabelFile (o : Options) (world : World) :
    o.withoutLabelFile.labelPath? world.withoutLabelVariable.env = none := by
  simp [labelPath?, withoutLabelFile, World.withoutLabelVariable]

/-- Without a dictionary there is one way only to set a run up. -/
theorem Configures.eq_of_unusable {json : Json.Library} {o : Options} {world : World}
    {settings bare : Settings} {path : String} (h : o.Configures json world settings)
    (hbare : o.withoutLabelFile.Configures json world.withoutLabelVariable bare)
    (hnames : o.NamesDictionary world.env path) (hunusable : Unusable json world path) :
    settings = bare := by
  have hnone (path : String) :
      ¬ o.withoutLabelFile.NamesDictionary world.withoutLabelVariable.env path := by
    rw [← labelPath?_eq_some_iff, labelPath?_withoutLabelFile]
    simp
  have hlocale : settings.locale = bare.locale := by
    rw [h.locale_eq, hbare.locale_eq, localeIn_withoutLabelFile]
  have hmode : settings.mode = bare.mode := h.mode_eq.trans hbare.mode_eq.symm
  have hdictionary : settings.dictionary = bare.dictionary :=
    (h.eq_empty_of_unusable path hnames hunusable).trans (hbare.eq_empty hnone).symm
  cases settings
  cases bare
  congr

end Options

end FormulaTree.CommandLine
