import FormulaTree.CommandLine.Program

/-!
# Worlds

The surroundings of a run when nothing but the run itself has an effect on them: files that stay as
they are, and an input that is used up by reading.
-/

namespace FormulaTree.CommandLine

/-- What there is at a path. -/
inductive File where
  /-- What reading gives, however often it is done. -/
  | fixed (contents : Except ReadFailure ByteArray)
  /-- The standard input itself. -/
  | input

structure World where
  env : String → Option String
  file : String → File
  /-- What is left of the standard input. -/
  input : ByteArray

namespace World

/-- The world when its input is used up. -/
def drained (world : World) : World :=
  { world with input := .empty }

/-- What reading the file at a path gives. -/
def read (world : World) (path : String) : Except ReadFailure ByteArray :=
  match world.file path with
  | .fixed contents => contents
  | .input => .ok world.input

/-- The world after the file at a path was read. -/
def afterReading (world : World) (path : String) : World :=
  match world.file path with
  | .fixed _ => world
  | .input => world.drained

def surroundings (world : World) : Surroundings (StateM World) where
  env := world.env
  file path := modifyGet fun world => (world.read path, world.afterReading path)
  input := modifyGet fun world => (world.input, world.drained)

/-- What the program comes to in a world. -/
def run (world : World) (json : Json.Library) (arguments : List String) : Outcome :=
  ((CommandLine.run json arguments world.surroundings).run world).1

end World

end FormulaTree.CommandLine
