import FormulaTree.CommandLine.Program
import FormulaTree.Json.Reader

/-!
# The command line

Runs the program in the surroundings of the process.
-/

namespace FormulaTree.CommandLine

/-- Whether an error code is a given number; codes come with either sign. -/
def isErrorCode (code number : UInt32) : Bool :=
  code = number || code = 0 - number

/-- Why reading a file failed. -/
def readFailure (e : IO.Error) : ReadFailure :=
  match e with
  | .noFileOrDirectory .. => .missing
  | .inappropriateType _ code _ =>
    if isErrorCode code 20 then .notDirectory
    else if isErrorCode code 21 then .isDirectory
    else .system (toString e)
  | .invalidArgument _ code _ =>
    if isErrorCode code 36 then .nameTooLong else .system (toString e)
  | .permissionDenied _ code _ =>
    if isErrorCode code 13 then .permissionDenied else .system (toString e)
  | _ => .system (toString e)

def readFile (path : String) : IO (Except ReadFailure ByteArray) := do
  try
    return .ok (← IO.FS.readBinFile path)
  catch e =>
    return .error (readFailure e)

/-- Everything up to the end of a stream, behind the bytes read before. -/
partial def readAll (stream : IO.FS.Stream) (before : ByteArray) : IO ByteArray := do
  let bytes ← stream.read 65536
  if bytes.isEmpty then return before else readAll stream (before ++ bytes)

/-- A line with its line feed, and the bytes read beyond it; no line at the end of the stream. -/
partial def readLine (stream : IO.FS.Stream) (before : ByteArray) :
    IO (Option ByteArray × ByteArray) := do
  match before.toList.findIdx? (· = 10) with
  | some i => return (some (before.extract 0 (i + 1)), before.extract (i + 1) before.size)
  | none =>
    let bytes ← stream.read 4096
    if !bytes.isEmpty then readLine stream (before ++ bytes)
    else if before.isEmpty then return (none, before)
    else return (some before, .empty)

/-- Answers lines until the input or the session ends. -/
partial def converse (stream : IO.FS.Stream) (session : Session) (before : ByteArray) : IO Unit := do
  IO.print Session.prompt
  (← IO.getStdout).flush
  let (line?, before) ← readLine stream before
  if let some line := line? then
    let response := session.respond line
    IO.print response.streams.out
    IO.eprint response.streams.err
    if let some session := response.next? then
      converse stream session before

def surroundings (stdin : IO.FS.Stream) : IO (Surroundings IO) := do
  let names := labelVariable :: Locale.environmentNames
  let values ← names.mapM fun name => return (name, ← IO.getEnv name)
  return {
    env := fun name => (values.lookup name).join
    file := readFile
    input := readAll stdin .empty
  }

def start (arguments : List String) : IO UInt32 := do
  let stdin ← IO.getStdin
  let around ← surroundings stdin
  if let .ok (.run options) := Invocation.ofArguments arguments then
    -- A conversation is printed while it goes on.
    if options.interactive then
      let (settings, messages) ← options.settings Json.library around
      IO.eprint messages
      converse stdin (Session.new settings) .empty
      return 0
  let outcome ← run Json.library arguments around
  IO.print outcome.streams.out
  IO.eprint outcome.streams.err
  return outcome.code.toUInt32

end FormulaTree.CommandLine

def main (arguments : List String) : IO UInt32 :=
  FormulaTree.CommandLine.start arguments
