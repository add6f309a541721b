/-!
# Markup

HTML as a tree. Text is escaped where it is written, so no text can be taken for a tag.
-/

namespace FormulaTree

/-- An attribute of an element; one without a value is only named. -/
structure Markup.Attribute where
  name : String
  value? : Option String := none
deriving DecidableEq, Repr

inductive Markup where
  | text (contents : String)
  /-- Text that is written as it is, such as a style sheet. -/
  | verbatim (contents : String)
  | element (tag : String) (attributes : List Markup.Attribute) (children : List Markup)

namespace Markup

/-- The written form of a character of a text. -/
def escapeChar (c : Char) : List Char :=
  match c with
  | '&' => "&amp;".toList
  | '<' => "&lt;".toList
  | '>' => "&gt;".toList
  | '"' => "&quot;".toList
  | '\'' => "&#39;".toList
  | _ => [c]

def escape (s : String) : String :=
  String.ofList (s.toList.flatMap escapeChar)

/-- The written form of an attribute, with the space in front of it. -/
def Attribute.write (a : Attribute) : String :=
  match a.value? with
  | some value => " " ++ a.name ++ "=\"" ++ escape value ++ "\""
  | none => " " ++ a.name

def openTag (tag : String) (attributes : List Attribute) : String :=
  "<" ++ tag ++ String.join (attributes.map Attribute.write) ++ ">"

def closeTag (tag : String) : String :=
  "</" ++ tag ++ ">"

mutual

/-- Writes a node behind `out`. -/
def writeAfter (out : String) : Markup → String
  | text contents => out ++ escape contents
  | verbatim contents => out ++ contents
  | element tag attributes children =>
    writeAllAfter (out ++ openTag tag attributes) children ++ closeTag tag

def writeAllAfter (out : String) : List Markup → String
  | [] => out
  | m :: ms => writeAllAfter (writeAfter out m) ms

end

def write (m : Markup) : String :=
  writeAfter "" m

mutual

theorem writeAfter_eq_append (out : String) : ∀ m : Markup, writeAfter out m = out ++ m.write
  | text contents => by simp [write, writeAfter]
  | verbatim contents => by simp [write, writeAfter]
  | element tag attributes children => by
    simp only [write, writeAfter]
    rw [writeAllAfter_eq_append _ children, writeAllAfter_eq_append ("" ++ _) children]
    simp [String.append_assoc]

theorem writeAllAfter_eq_append (out : String) :
    ∀ ms : List Markup, writeAllAfter out ms = out ++ writeAllAfter "" ms
  | [] => by simp [writeAllAfter]
  | m :: ms => by
    simp only [writeAllAfter]
    rw [writeAllAfter_eq_append _ ms, writeAllAfter_eq_append (writeAfter "" m) ms,
      writeAfter_eq_append out m, writeAfter_eq_append "" m]
    simp [String.append_assoc]

end

/-- An element is written as its opening tag, its children in order, and its closing tag. -/
theorem write_element (tag : String) (attributes : List Attribute) (children : List Markup) :
    (element tag attributes children).write =
      openTag tag attributes ++ String.join (children.map write) ++ closeTag tag := by
  have h : ∀ (out : String) (ms : List Markup),
      writeAllAfter out ms = out ++ String.join (ms.map write) := by
    intro out ms
    induction ms generalizing out with
    | nil => simp [writeAllAfter]
    | cons m ms ih => simp [writeAllAfter, ih, writeAfter_eq_append out m, String.append_assoc]
  simp [write, writeAfter, h]

end Markup

end FormulaTree
