import FormulaTree.File
import FormulaTree.Session.Basic
import FormulaTree.Streams

/-!
# Sessions over a stream of lines

A prompt is written before each line is read. Lines that hold only blanks are passed over, and a
line that is not UTF-8 ends the session.
-/

namespace FormulaTree

namespace Session

/-- Asks for a line. -/
def prompt : String := "fx> "

/-- What a line leads to: what is written, and the session that goes on, unless it ends. -/
structure Response where
  streams : Streams
  next? : Option Session

/-- Answers a line as it was read. -/
def respond (s : Session) (line : ByteArray) : Response :=
  match decodeText line with
  | .error failure => ⟨⟨"", reportLine ("read error: " ++ failure.message)⟩, none⟩
  | .ok text =>
    if Text.isAllBlank text then
      ⟨.empty, some s⟩
    else
      match s.handle text with
      | (.print t, s) => ⟨⟨t ++ "\n", ""⟩, some s⟩
      | (.error t, s) => ⟨⟨"", t ++ "\n"⟩, some s⟩
      | (.quit, _) => ⟨.empty, none⟩

/-- Everything that is written while the lines are read. -/
def transcript (s : Session) : List ByteArray → Streams
  | [] => ⟨prompt, ""⟩
  | line :: lines =>
    let response := s.respond line
    match response.next? with
    | none => ⟨prompt, ""⟩ ++ response.streams
    | some s => ⟨prompt, ""⟩ ++ response.streams ++ s.transcript lines

/-- The lines of an input, each up to and with its line feed; `line` has the bytes of the first line
that are already read, last one first. -/
def splitLines (line : List UInt8) : List UInt8 → List ByteArray
  | [] => if line.isEmpty then [] else [⟨line.reverse.toArray⟩]
  | b :: bs =>
    if b = 10 then ⟨(b :: line).reverse.toArray⟩ :: splitLines [] bs else splitLines (b :: line) bs

end Session

end FormulaTree
