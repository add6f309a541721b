import FormulaTree.Label.Mode

/-!
# Options of the command line

Options may stand in any order and may have their value in the next argument or, for some of them,
attached. What is no option is the formula; a formula that starts like an option stands behind `--`.
-/

namespace FormulaTree.CommandLine

inductive Form where
  | tree
  | inline
  | html
deriving DecidableEq, Repr

structure Options where
  formula : Option String := none
  formulaFile : Option String := none
  /-- The language, when it is not taken from the environment. -/
  locale : Option Locale := none
  mode : Label.Mode := .auto
  labelFile : Option String := none
  form : Form := .tree
  /-- Whether every call starts closed. -/
  collapsed : Bool := false
  /-- Whether lines are read and answered one by one. -/
  interactive : Bool := false
  verbose : Bool := false
deriving DecidableEq, Repr

inductive Invocation where
  | run (options : Options)
  | help
  | version
deriving DecidableEq, Repr

inductive UsageError where
  | unknownOption (text : String)
  | unexpectedArgument (text : String)
  | missingValue (option : String)
  | language (e : UnknownLanguage)
  | labelMode (e : Label.UnknownMode)
  | formulaAndFile
  | collapsedInline
deriving DecidableEq, Repr

def UsageError.message : UsageError → String
  | unknownOption text => "unknown option: " ++ text
  | unexpectedArgument text => "unexpected argument: " ++ text
  | missingValue option => option ++ " requires an argument"
  | language e => e.message
  | labelMode e => e.message
  | formulaAndFile => "give the formula either inline or with -f, not both"
  | collapsedInline => "--collapsed has no effect with --inline"

inductive Flag where
  | inline
  | html
  | collapsed
  | interactive
  | verbose
deriving DecidableEq, Repr

inductive Setting where
  | language
  | labels
  | labelFile
  | formulaFile
deriving DecidableEq, Repr

inductive Argument where
  | help
  | version
  | flag (f : Flag)
  /-- An option whose value is the next argument. -/
  | setting (s : Setting)
  | settingTo (s : Setting) (value : String)
  /-- The mark behind which only the formula may stand. -/
  | separator
  | unknown
  | formula
deriving DecidableEq, Repr

namespace Argument

/-- The rest of a text behind `start`, if it starts so. -/
def after? (start text : String) : Option String :=
  (start.toList.isPrefixOf? text.toList).map String.ofList

/-- A text with a minus sign in front and such a character behind it is a formula. -/
def continuesFormula (c : Char) : Bool :=
  c.isDigit || c = '.' || c = '(' || c = '$' || c = '-'

/-- The part played by an argument that is not one of the fixed options. -/
def ofText (text : String) : Argument :=
  if let some value := after? "--lang=" text then .settingTo .language value
  else if let some value := after? "--labels=" text then .settingTo .labels value
  else if let some value := after? "--label-table=" text then .settingTo .labelFile value
  else
    match text.toList with
    | '-' :: '-' :: _ => unknown
    | '-' :: 'l' :: c :: cs => .settingTo .language (String.ofList (c :: cs))
    | '-' :: 'm' :: c :: cs => .settingTo .labels (String.ofList (c :: cs))
    | '-' :: c :: _ => if continuesFormula c then formula else unknown
    | _ => formula

def ofString (text : String) : Argument :=
  match text with
  | "--" => separator
  | "-h" | "--help" => help
  | "--version" => version
  | "--inline" => flag .inline
  | "--html" => flag .html
  | "--collapsed" => flag .collapsed
  | "--repl" => flag .interactive
  | "-v" | "--verbose" => flag .verbose
  | "-l" | "--lang" => setting .language
  | "-m" | "--labels" => setting .labels
  | "-t" | "--label-table" => setting .labelFile
  | "-f" => setting .formulaFile
  | _ => ofText text

end Argument

namespace Options

/-- Sets a flag; of `--inline` and `--html` the last one counts. -/
def setFlag (o : Options) : Flag → Options
  | .inline => { o with form := .inline }
  | .html => { o with form := .html }
  | .collapsed => { o with collapsed := true }
  | .interactive => { o with interactive := true }
  | .verbose => { o with verbose := true }

/-- Gives an option its value; the last value counts. -/
def set (o : Options) (value : String) : Setting → Except UsageError Options
  | .language =>
    match Locale.ofCode value with
    | .ok locale => .ok { o with locale := some locale }
    | .error e => .error (.language e)
  | .labels =>
    match Label.Mode.ofCode value with
    | .ok mode => .ok { o with mode }
    | .error e => .error (.labelMode e)
  | .labelFile => .ok { o with labelFile := some value }
  | .formulaFile => .ok { o with formulaFile := some value }

/-- Sets the formula, of which there is only one. -/
def setFormula (o : Options) (text : String) : Except UsageError Options :=
  if o.formula.isSome then .error (.unexpectedArgument text)
  else .ok { o with formula := some text }

def check (o : Options) : Except UsageError Options :=
  if o.formula.isSome ∧ o.formulaFile.isSome then .error .formulaAndFile
  else if o.form = .inline ∧ o.collapsed then .error .collapsedInline
  else .ok o

/-- The options with what may stand behind the separator. -/
def afterSeparator (o : Options) : List String → Except UsageError Options
  | [] => .ok o
  | [text] => o.setFormula text
  | text :: extra :: _ => do
    let _ ← o.setFormula text
    .error (.unexpectedArgument extra)

end Options

/-- What the arguments ask for, when those before them gave the options `o`. -/
def Invocation.read (o : Options) : List String → Except UsageError Invocation
  | [] => return .run (← o.check)
  | text :: rest =>
    match Argument.ofString text with
    | .help => .ok .help
    | .version => .ok .version
    | .flag f => read (o.setFlag f) rest
    | .setting s =>
      match rest with
      | [] => .error (.missingValue text)
      | value :: rest => do read (← o.set value s) rest
    | .settingTo s value => do read (← o.set value s) rest
    | .separator => return .run (← (← o.afterSeparator rest).check)
    | .unknown => .error (.unknownOption text)
    | .formula => do read (← o.setFormula text) rest

def Invocation.ofArguments (arguments : List String) : Except UsageError Invocation :=
  read {} arguments

end FormulaTree.CommandLine
