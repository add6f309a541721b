import FormulaTree.File
import FormulaTree.Json.Basic
import FormulaTree.Label.Dictionary
import FormulaTree.Note

/-!
# Label documents

A dictionary is written as a JSON object with one member for each function, which is an object with
a list of labels for each variant. Members that are not objects and variants that are not lists are
left out, and so are items that are not strings, without moving the items behind them. Functions are
taken in the order of the members, so that of two keys with one upper case the later one counts.
-/

namespace FormulaTree.Label

variable (json : Json.Library)

inductive DocumentError where
  | unreadable (path : String) (failure : ReadFailure)
  /-- The text is not JSON, for the reason that the library gives. -/
  | notJson (reason : String)
  | notObject
deriving DecidableEq, Repr

def DocumentError.message : DocumentError → String
  | unreadable path failure => "cannot read label table '" ++ path ++ "': " ++ failure.message
  | notJson reason => "label table is not valid JSON: " ++ reason
  | notObject => "label table must be a JSON object keyed by function name"

def Entry.item? : Json → Option String
  | .string s => some s
  | _ => none

/-- The list of labels that a member of an entry writes; no list at all if it is absent or null. -/
def Entry.list? : Option Json → Option (List (Option String))
  | none | some .null => some []
  | some (.array items) => some (items.map Entry.item?)
  | some _ => none

/-- The list of a variant in the entry of `function`. A member that is no list is noted. -/
def Entry.read (function : String) (members : List (String × Json)) (variant : Variant) :
    List (Option String) × List Note :=
  let member? := members.lookup variant.key
  match Entry.list? member?, member? with
  | some labels, _ => (labels, [])
  | none, some value =>
    ([], [.debug ("ignoring " ++ function ++ "." ++ variant.key ++ ": expected a list, found "
      ++ json.compact value)])
  | none, none => ([], [])

def Entry.ofMembers (function : String) (members : List (String × Json)) : Entry × List Note :=
  let (ja1, notes₁) := Entry.read json function members .ja1
  let (ja2, notes₂) := Entry.read json function members .ja2
  let (en, notes₃) := Entry.read json function members .en
  ({ ja1, ja2, en }, notes₁ ++ notes₂ ++ notes₃)

namespace Dictionary

/-- Adds the entry that a member of a document writes, and notes what is left out; `notes` has the
notes so far in parts, the last part first. -/
def addMember : Dictionary × List (List Note) → String × Json → Dictionary × List (List Note)
  | (d, notes), (function, .object members) =>
    let (entry, more) := Entry.ofMembers json function members
    (d.insert function entry, more :: notes)
  | (d, notes), (function, _) =>
    (d, [.debug ("skipping label entry " ++ function ++ ": not an object")] :: notes)

def ofMembers (members : List (String × Json)) : Dictionary × List Note :=
  let (d, notes) := members.foldl (addMember json) (empty, [])
  (d, notes.reverse.flatten
    ++ [.debug ("loaded argument labels for " ++ toString d.size ++ " functions")])

def ofDocument (text : String) : Except DocumentError (Dictionary × List Note) :=
  match json.parse text with
  | .ok (.object members) => .ok (ofMembers json members)
  | .ok _ => .error .notObject
  | .error reason => .error (.notJson reason)

section

variable {m : Type → Type} [Monad m] (read : String → m (Except ReadFailure ByteArray))

def load (path : String) : m (Except DocumentError (Dictionary × List Note)) := do
  match (← read path) >>= decodeText with
  | .ok text => return ofDocument json text
  | .error failure => return .error (.unreadable path failure)

/-- The dictionary in the file at `path`; without one, a warning and no entries. -/
def loadOrEmpty (path : String) : m (Dictionary × List Note) := do
  match ← load json read path with
  | .ok loaded => return loaded
  | .error e => return (empty, [.warning (e.message ++ "; using generic argument labels")])

end

end Dictionary

end FormulaTree.Label
