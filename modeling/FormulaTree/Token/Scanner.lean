import FormulaTree.Text.Blank
import FormulaTree.Token.Basic

/-!
# Scanning a formula

A `Scanner` is a formula read up to some character. Scanning drops blanks and at most one `=` in
front, and then takes the longest token at each place. Blanks of every kind are dropped at both ends
of a formula, but only spaces, tabs, carriage returns and line feeds between its tokens.
-/

namespace FormulaTree

/-- A character that starts no token, and its place. -/
structure StrayCharacter where
  char : Char
  place : Position
deriving DecidableEq, Repr

namespace Token

/-- A character that may stand between two tokens. -/
def isGap (c : Char) : Bool :=
  c = ' ' || c = '\t' || c = '\r' || c = '\n'

/-- A character of a number after the first. -/
def isNumberPart (c : Char) : Bool :=
  c.isDigit || c = '.'

/-- A character that a name may start with. -/
def startsName (c : Char) : Bool :=
  c.isAlpha || c = '_' || c = '$'

/-- A character of a name after the first. -/
def isNamePart (c : Char) : Bool :=
  c.isAlphanum || c = '_' || c = '$'

/-- A number starts with a digit, or with a dot in front of a digit. -/
def startsNumber (c : Char) (cs : List Char) : Bool :=
  c.isDigit || (c = '.' && cs.head?.any Char.isDigit)

/-- The longest token that starts with `c` when `cs` follow, and how many of `cs` belong to it. A
string whose closing quote is missing runs to the end. -/
def munch? (c : Char) (cs : List Char) : Option (Token × Nat) :=
  match c with
  | ',' => some (.comma, 0)
  | '(' => some (.leftParen, 0)
  | ')' => some (.rightParen, 0)
  | '+' => some (.op .add, 0)
  | '-' => some (.op .sub, 0)
  | '*' => some (.op .mul, 0)
  | '/' => some (.op .div, 0)
  | '^' => some (.op .pow, 0)
  | ':' => some (.op .range, 0)
  | '=' => if cs.head? = some '=' then some (.doubleEquals, 1) else some (.op .eq, 0)
  | '<' =>
    if cs.head? = some '=' then some (.op .le, 1)
    else if cs.head? = some '>' then some (.op .ne, 1)
    else some (.op .lt, 0)
  | '>' => if cs.head? = some '=' then some (.op .ge, 1) else some (.op .gt, 0)
  | '"' =>
    let contents := cs.takeWhile (· ≠ '"')
    some (.string (String.ofList contents), contents.length + 1)
  | _ =>
    if startsNumber c cs then
      let more := cs.takeWhile isNumberPart
      some (.number (String.ofList (c :: more)), more.length)
    else if startsName c then
      let more := cs.takeWhile isNamePart
      some (.name (String.ofList (c :: more)), more.length)
    else
      none

end Token

/-- A formula read up to some character. -/
structure Scanner where
  /-- The unread characters, without the blanks at the end of the formula. -/
  rest : List Char
  place : Position
deriving DecidableEq, Repr

namespace Scanner

def ofString (source : String) : Scanner :=
  ⟨Text.dropBlanksRight source.toList, .start⟩

/-- The scanner after `n` more characters. -/
def skip (s : Scanner) (n : Nat) : Scanner :=
  ⟨s.rest.drop n, s.place.after (s.rest.take n)⟩

/-- Passes over the blanks in front of a formula and over one `=` after them. -/
def lead (s : Scanner) : Scanner :=
  let s := s.skip (s.rest.takeWhile Text.isBlank).length
  if s.rest.head? = some '=' then s.skip 1 else s

/-- What scanning comes to: the tokens or the character in the way, and the scanner there. -/
structure Scan where
  result : Except StrayCharacter (List Token.Placed)
  scanner : Scanner

/-- Scans `cs`, the first of which stands at `place`, after the tokens `done`, last one first. -/
def scan (done : List Token.Placed) (place : Position) : List Char → Scan
  | [] => ⟨.ok (⟨.ending, place⟩ :: done).reverse, ⟨[], place⟩⟩
  | c :: cs =>
    if Token.isGap c then
      scan done (place.next c) cs
    else
      match Token.munch? c cs with
      | none => ⟨.error ⟨c, place⟩, ⟨c :: cs, place⟩⟩
      | some (t, n) =>
        scan (⟨t, place⟩ :: done) ((place.next c).after (cs.take n)) (cs.drop n)
termination_by cs => cs.length
decreasing_by all_goals simp only [List.length_cons, List.length_drop]; omega

/-- All tokens from here on, with `Token.ending` as the last one. At a character that starts no
token the scanner stops and stays. -/
def run (s : Scanner) : Scan :=
  scan [] s.lead.place s.lead.rest

def tokens (source : String) : Except StrayCharacter (List Token.Placed) :=
  (ofString source).run.result

end Scanner

end FormulaTree
