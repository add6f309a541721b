import FormulaTree.Display
import FormulaTree.Outline.Page
import FormulaTree.Session.Command

/-!
# Sessions

A session holds a formula, its outline and the settings it was made with. A formula that is rejected
takes the place of the one before and leaves no outline. A change of the settings makes the outline
anew, with every call open.
-/

namespace FormulaTree

inductive Reply where
  | print (text : String)
  | error (text : String)
  | quit
deriving DecidableEq, Repr

structure Session where
  settings : Settings
  /-- The formula entered last. -/
  source? : Option String
  /-- Its outline, unless it was rejected. -/
  outline? : Option Outline

namespace Session

def new (settings : Settings) : Session :=
  ⟨settings, none, none⟩

/-- The answer where a formula is needed and there is none. -/
def noFormula : Reply :=
  .error "(no formula yet)"

/-- Makes the outline of the formula anew. -/
def refresh (s : Session) : Reply × Session :=
  match s.source? with
  | none => (noFormula, s)
  | some source =>
    match Outline.ofSource s.settings source with
    | .ok outline => (.print outline.text, { s with outline? := some outline })
    | .error e => (.error (e.display s.settings.locale), { s with outline? := none })

/-- Makes the outline anew after a change of the settings, which is confirmed by `note` when there
is no formula. -/
def afterChange (s : Session) (note : String) : Reply × Session :=
  match s.source? with
  | none => (.print note, s)
  | some _ => s.refresh

/-- Changes the outline and shows it. -/
def change (s : Session) (f : Outline → Outline) : Reply × Session :=
  match s.outline? with
  | none => (noFormula, s)
  | some outline => (.print (f outline).text, { s with outline? := some (f outline) })

def view (s : Session) (f : Outline → String) : Reply :=
  match s.outline? with
  | none => noFormula
  | some outline => .print (f outline)

def fold (s : Session) (action : FoldAction) (id : Nat) : Reply × Session :=
  match s.outline? with
  | none => (noFormula, s)
  | some outline =>
    let folded := match action with
      | .fold => outline.setOpen? id false
      | .unfold => outline.setOpen? id true
      | .toggle => outline.toggle? id
    match folded with
    | some outline => (.print outline.text, { s with outline? := some outline })
    | none => (.error ("no block " ++ toString id), s)

def callLine (call : CallInfo) : String :=
  Text.padLeft 3 (toString call.id) ++ "  " ++ Text.copies call.depth "  " ++ call.function ++ "  "
    ++ if call.isOpen then "(open)" else "(closed)"

def callList (outline : Outline) : String :=
  match outline.calls with
  | [] => "(no function blocks)"
  | calls => "\n".intercalate (calls.map callLine)

def oneLine (s : Session) : Reply :=
  match s.source?.map Formula.oneLine with
  | none => noFormula
  | some (.ok text) => .print text
  | some (.error e) => .error (e.display s.settings.locale)

def run (s : Session) : Command → Reply × Session
  | .formula source => { s with source? := some source }.refresh
  | .quit => (.quit, s)
  | .language code =>
    match Locale.ofCode code with
    | .ok locale =>
      { s with settings := { s.settings with locale } }.afterChange
        ("(language: " ++ locale.code ++ ")")
    | .error e => (.error e.message, s)
  | .labels code =>
    match Label.Mode.ofCode code with
    | .ok mode =>
      { s with settings := { s.settings with mode } }.afterChange
        (s.settings.locale.phrases.labelMode ++ " " ++ mode.code)
    | .error e => (.error e.message, s)
  | .blocks => (s.view callList, s)
  | .fold action argument =>
    match Command.number? argument with
    | some id => s.fold action id
    | none => (.error (":" ++ action.word ++ " needs a block number (see :blocks)"), s)
  | .collapse => s.change Outline.collapseAll
  | .expand => s.change Outline.expandAll
  | .header => s.change Outline.clickHeader
  | .html => (s.view Outline.html, s)
  | .inline => (s.oneLine, s)
  | .unknown word => (.error ("unknown command: :" ++ word), s)

def handle (s : Session) (line : String) : Reply × Session :=
  s.run (Command.ofLine line)

end Session

end FormulaTree
