import FormulaTree.Text.Blank

/-!
# Commands of a session

A line of a session is a command, when it starts with a colon, or else a formula.
-/

namespace FormulaTree

inductive FoldAction where
  | fold
  | unfold
  | toggle
deriving DecidableEq, Repr

def FoldAction.word : FoldAction → String
  | fold => "fold"
  | unfold => "unfold"
  | toggle => "toggle"

inductive Command where
  | formula (source : String)
  | quit
  | language (code : String)
  | labels (code : String)
  | blocks
  | fold (action : FoldAction) (number : String)
  | collapse
  | expand
  | header
  | html
  | inline
  | unknown (word : String)
deriving DecidableEq, Repr

namespace Command

/-- The command named by a word, with the text behind the word. -/
def ofWord (word argument : String) : Command :=
  match word with
  | "q" | "quit" => quit
  | "lang" => language argument
  | "labels" => labels argument
  | "blocks" => blocks
  | "fold" => fold .fold argument
  | "unfold" => fold .unfold argument
  | "toggle" => fold .toggle argument
  | "collapse" => collapse
  | "expand" => expand
  | "header" => header
  | "html" => html
  | "inline" => inline
  | _ => unknown word

/-- What a line asks for. Blanks around the line and around the argument of a command do not
count. -/
def ofLine (line : String) : Command :=
  match (Text.trim line).toList with
  | ':' :: cs =>
    let word := cs.takeWhile (!Text.isBlank ·)
    ofWord (String.ofList word) (Text.trim (String.ofList (cs.drop word.length)))
  | cs => formula (String.ofList cs)

/-- The number that an argument writes: digits, with a plus sign in front at most, for a number
below `2 ^ 64`. -/
def number? (argument : String) : Option Nat :=
  let digits := match argument.toList with
    | '+' :: cs => cs
    | cs => cs
  if digits.isEmpty || !digits.all Char.isDigit then
    none
  else
    let n := digits.foldl (fun n c => n * 10 + (c.toNat - '0'.toNat)) 0
    if n < UInt64.size then some n else none

end Command

end FormulaTree
