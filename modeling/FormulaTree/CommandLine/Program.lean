import FormulaTree.CommandLine.Options
import FormulaTree.CommandLine.Usage
import FormulaTree.Label.Document
import FormulaTree.Session.Loop

/-!
# The program

From arguments and surroundings to an exit code and what is written. The exit code is 0 after an
answer, 1 when there was nothing to format, and 2 when the formula was rejected.
-/

namespace FormulaTree.CommandLine

/-- What a run asks of the system that it runs on. Files and the standard input are read by actions:
a file may lead to the input, and what is read of the input is gone from it. -/
structure Surroundings (m : Type → Type) where
  env : String → Option String
  /-- Reads the file at a path. -/
  file : String → m (Except ReadFailure ByteArray)
  /-- Reads what is left of the standard input. -/
  input : m ByteArray

structure Outcome where
  code : Nat
  streams : Streams
deriving DecidableEq, Repr

/-- The line that reports a note, if it is reported. -/
def noteLine (verbose : Bool) (note : Note) : String :=
  match note.level with
  | .warning => reportLine ("warning: " ++ note.text)
  | .debug => if verbose then reportLine ("debug: " ++ note.text) else ""

def noteLines (verbose : Bool) (notes : List Note) : String :=
  String.join (notes.map (noteLine verbose))

def rejectionText (e : UsageError) : String :=
  reportLine e.message ++ "Try '" ++ programName ++ " --help' for usage.\n"

variable {m : Type → Type} [Monad m] (json : Json.Library)

namespace Options

def localeIn (o : Options) (env : String → Option String) : Locale :=
  o.locale.getD (Locale.ofEnvironment env)

/-- The file of the label dictionary: the one given, or else the one the environment names. -/
def labelPath? (o : Options) (env : String → Option String) : Option String :=
  o.labelFile <|> (env labelVariable).filter (!·.isEmpty)

/-- The dictionary of a run, and what is written when it is loaded. Without a dictionary the run
goes on. -/
def dictionary (o : Options) (around : Surroundings m) : m (Label.Dictionary × String) := do
  match o.labelPath? around.env with
  | none =>
    return (.empty,
      noteLine o.verbose (.debug "no label table given; using generic argument labels"))
  | some path =>
    match ← Label.Dictionary.load json around.file path with
    | .ok (d, notes) => return (d, noteLines o.verbose notes)
    | .error e =>
      return (.empty,
        noteLine o.verbose (.warning e.message)
          ++ (o.localeIn around.env).phrases.labelsUnavailable ++ "\n")

/-- The settings of a run, and what is written before it starts. -/
def settings (o : Options) (around : Surroundings m) : m (Settings × String) := do
  let locale := o.localeIn around.env
  let (dictionary, messages) ← o.dictionary json around
  return ({ locale, mode := o.mode, dictionary },
    noteLine o.verbose (.debug ("locale " ++ locale.code ++ ", labels " ++ o.mode.code))
      ++ messages)

/-- The formula: as given, from its file, or from the input. -/
def source (o : Options) (around : Surroundings m) : m (Except ReadFailure String) := do
  match o.formula, o.formulaFile with
  | some text, _ => return .ok text
  | none, some path => return (← around.file path) >>= decodeText
  | none, none => return decodeText (← around.input)

def render (o : Options) (settings : Settings) (source : String) : Except FormulaError String :=
  match o.form with
  | .inline => Formula.oneLine source
  | .tree => (Outline.ofSource settings source).map fun outline => (shown outline).text
  | .html => (Outline.ofSource settings source).map fun outline => (shown outline).html
where
  /-- The outline as it starts. -/
  shown (outline : Outline) : Outline :=
    if o.collapsed then outline.collapseAll else outline

/-- What comes of a formula once it is read, behind the messages written before. -/
def outcome (o : Options) (settings : Settings) (messages : String) :
    Except ReadFailure String → Outcome
  | .error failure => ⟨1, "", messages ++ reportLine failure.message⟩
  | .ok source =>
    match o.render settings source with
    | .ok text => ⟨0, text ++ "\n", messages⟩
    | .error e =>
      ⟨2, "",
        messages ++ noteLine o.verbose (Formula.rejectionNote e)
          ++ e.display settings.locale ++ "\n"⟩

/-- Formats one formula. The dictionary is loaded before the formula is read. -/
def format (o : Options) (around : Surroundings m) : m Outcome := do
  let (settings, messages) ← o.settings json around
  return o.outcome settings messages (← o.source around)

def converse (o : Options) (around : Surroundings m) : m Outcome := do
  let (settings, messages) ← o.settings json around
  let lines := Session.splitLines [] (← around.input).toList
  let streams := (Session.new settings).transcript lines
  return ⟨0, streams.out, messages ++ streams.err⟩

end Options

def Invocation.outcome (around : Surroundings m) : Invocation → m Outcome
  | .help => return ⟨0, "", usageText⟩
  | .version => return ⟨0, versionText, ""⟩
  | .run o => if o.interactive then o.converse json around else o.format json around

/-- The whole program. -/
def run (arguments : List String) (around : Surroundings m) : m Outcome := do
  match Invocation.ofArguments arguments with
  | .ok invocation => invocation.outcome json around
  | .error e => return ⟨1, "", rejectionText e⟩

end FormulaTree.CommandLine
