/-!
# JSON values

Documents are read, and values are written, by a library for JSON.
-/

namespace FormulaTree

/-- A value. The members of an object are in the order in which they are visited. -/
inductive Json where
  | null
  | bool (value : Bool)
  /-- A number, known by the text that is written for it. -/
  | number (text : String)
  | string (value : String)
  | array (items : List Json)
  | object (members : List (String × Json))
deriving Inhabited

/-- What a library for JSON offers. -/
structure Json.Library where
  /-- The value that a document writes, or what is wrong with the document. -/
  parse : String → Except String Json
  /-- The text of a value on one line. -/
  compact : Json → String

end FormulaTree
