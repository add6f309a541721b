/-!
# Files

Reading files as text.
-/

namespace FormulaTree

inductive ReadFailure where
  | missing
  | isDirectory
  | notDirectory
  /-- A path, or a name in it, has more bytes than the system allows. -/
  | nameTooLong
  /-- The path has a NUL character, which no path may have. -/
  | nulInPath
  | permissionDenied
  | invalidText
  /-- Any other failure, in the words of the system. -/
  | system (message : String)
deriving DecidableEq, Repr

def ReadFailure.message : ReadFailure → String
  | missing => "No such file or directory (os error 2)"
  | isDirectory => "Is a directory (os error 21)"
  | notDirectory => "Not a directory (os error 20)"
  | nameTooLong => "File name too long (os error 36)"
  | nulInPath => "file name contained an unexpected NUL byte"
  | permissionDenied => "Permission denied (os error 13)"
  | invalidText => "stream did not contain valid UTF-8"
  | system message => message

/-- The text that UTF-8 bytes write. -/
def decodeText (bytes : ByteArray) : Except ReadFailure String :=
  match String.fromUTF8? bytes with
  | some text => .ok text
  | none => .error .invalidText

theorem decodeText_toUTF8 (s : String) : decodeText s.toUTF8 = .ok s := by
  have h : String.fromUTF8? s.toUTF8 = some s := by
    unfold String.fromUTF8?
    split
    · rfl
    · next h => exact absurd s.isValidUTF8 h
  rw [decodeText, h]

end FormulaTree
