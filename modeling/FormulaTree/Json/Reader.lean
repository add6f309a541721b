import FormulaTree.Json.Compact
import FormulaTree.Json.Number

/-!
# Reading JSON documents

A document is one value. It is first cut into lexemes; then a stack of open arrays and objects takes
the lexemes one by one. Nothing beyond the grammar is accepted: no comments, no trailing commas, no
leading zeros, no lone surrogates. At most 127 arrays and objects may be open at once. The members
of an object are put in ascending order of their keys; of members with one key the last one stays.
-/

namespace FormulaTree.Json

/-! ### Lexemes -/

inductive Lexeme where
  | leftBracket
  | rightBracket
  | leftBrace
  | rightBrace
  | colon
  | comma
  | string (value : String)
  /-- A number, a truth value or `null`. -/
  | scalar (value : Json)

namespace Lexeme

def isGap (c : Char) : Bool :=
  c = ' ' || c = '\t' || c = '\r' || c = '\n'

def hexValue? (c : Char) : Option Nat :=
  if c.isDigit then some (c.toNat - '0'.toNat)
  else if 'a' ≤ c ∧ c ≤ 'f' then some (c.toNat - 'a'.toNat + 10)
  else if 'A' ≤ c ∧ c ≤ 'F' then some (c.toNat - 'A'.toNat + 10)
  else none

/-- The number that four hexadecimal digits in front of the list write. -/
def unit? : List Char → Option Nat
  | a :: b :: c :: d :: _ => do
    return (← hexValue? a) * 4096 + (← hexValue? b) * 256 + (← hexValue? c) * 16 + (← hexValue? d)
  | _ => none

/-- The character that a `\u` escape writes, by the characters after the `u`, and how many of them
belong to it. A character beyond U+FFFF takes two escapes. -/
def unicode? (cs : List Char) : Option (Char × Nat) := do
  let high ← unit? cs
  if 0xDC00 ≤ high ∧ high ≤ 0xDFFF then
    none
  else if 0xD800 ≤ high ∧ high ≤ 0xDBFF then
    match cs.drop 4 with
    | '\\' :: 'u' :: more =>
      let low ← unit? more
      if 0xDC00 ≤ low ∧ low ≤ 0xDFFF then
        some (Char.ofNat (0x10000 + (high - 0xD800) * 0x400 + (low - 0xDC00)), 10)
      else
        none
    | _ => none
  else
    some (Char.ofNat high, 4)

/-- The character that an escape writes, by the characters after the backslash, and how many of them
belong to it. -/
def escape? : List Char → Option (Char × Nat)
  | '"' :: _ => some ('"', 1)
  | '\\' :: _ => some ('\\', 1)
  | '/' :: _ => some ('/', 1)
  | 'b' :: _ => some ('\x08', 1)
  | 'f' :: _ => some ('\x0c', 1)
  | 'n' :: _ => some ('\n', 1)
  | 'r' :: _ => some ('\r', 1)
  | 't' :: _ => some ('\t', 1)
  | 'u' :: cs => (unicode? cs).map fun (c, n) => (c, n + 1)
  | _ => none

/-- The rest of a string literal after the characters `done`, last one first, for which `count`
characters were taken. -/
def string? (done : List Char) (count : Nat) : List Char → Option (Lexeme × Nat)
  | [] => none
  | c :: cs =>
    if c = '"' then
      some (.string (String.ofList done.reverse), count + 1)
    else if c = '\\' then
      match escape? cs with
      | some (e, n) => string? (e :: done) (count + 1 + n) (cs.drop n)
      | none => none
    else if c.toNat < 0x20 then
      none
    else
      string? (c :: done) (count + 1) cs
termination_by cs => cs.length
decreasing_by all_goals simp only [List.length_cons, List.length_drop]; omega

def digits (cs : List Char) : List Nat :=
  (cs.takeWhile Char.isDigit).map fun c => c.toNat - '0'.toNat

/-- The digits of the integer part in front of the list: no zero in front of another digit. -/
def integerPart? (cs : List Char) : Option (List Nat) :=
  match digits cs with
  | [] => none
  | 0 :: _ :: _ => none
  | ds => some ds

/-- The point and its digits in front of the list, and how many characters they take. -/
def fractionPart? (cs : List Char) : Option (List Nat × Nat) :=
  match cs with
  | '.' :: cs =>
    match digits cs with
    | [] => none
    | ds => some (ds, ds.length + 1)
  | _ => some ([], 0)

/-- The exponent in front of the list, and how many characters it takes. -/
def exponentPart? (cs : List Char) : Option (Option (Bool × List Nat) × Nat) :=
  match cs with
  | c :: cs =>
    if c = 'e' || c = 'E' then
      let signs := (cs.take 1).filter fun c => c = '+' || c = '-'
      match digits (cs.drop signs.length) with
      | [] => none
      | ds => some (some (signs = ['-'], ds), ds.length + signs.length + 1)
    else
      some (none, 0)
  | [] => some (none, 0)

/-- The number in front of the list, and how many characters it takes. -/
def number? (cs : List Char) : Option (Lexeme × Nat) := do
  let negative := cs.head? = some '-'
  let cs := if negative then cs.drop 1 else cs
  let integer ← integerPart? cs
  let (fraction, n) ← fractionPart? (cs.drop integer.length)
  let (exponent, k) ← exponentPart? (cs.drop (integer.length + n))
  let value ← Numeral.number? { negative, integer, fraction, exponent, isWhole := n + k = 0 }
  return (.scalar (.number value.text), (if negative then 1 else 0) + integer.length + n + k)

/-- A word that stands for a value, when it is in front of the list. -/
def word? (value : Json) (word : String) (cs : List Char) : Option (Lexeme × Nat) :=
  if word.toList.isPrefixOf cs then some (.scalar value, word.length) else none

/-- The lexeme that starts with `c` when `cs` follow, and how many characters it takes. -/
def munch? (c : Char) (cs : List Char) : Option (Lexeme × Nat) :=
  match c with
  | '[' => some (.leftBracket, 1)
  | ']' => some (.rightBracket, 1)
  | '\x7b' => some (.leftBrace, 1)
  | '\x7d' => some (.rightBrace, 1)
  | ':' => some (.colon, 1)
  | ',' => some (.comma, 1)
  | '"' => string? [] 1 cs
  | 'n' => word? .null "null" (c :: cs)
  | 't' => word? (.bool true) "true" (c :: cs)
  | 'f' => word? (.bool false) "false" (c :: cs)
  | _ => number? (c :: cs)

/-- The lexemes of a document after those in `done`, last one first. -/
def scan (done : List Lexeme) : List Char → Option (List Lexeme)
  | [] => some done.reverse
  | c :: cs =>
    if isGap c then
      scan done cs
    else
      match munch? c cs with
      | some (l, n) => scan (l :: done) (cs.drop (n - 1))
      | none => none
termination_by cs => cs.length
decreasing_by all_goals simp only [List.length_cons, List.length_drop]; omega

end Lexeme

/-! ### Values -/

/-- Sets the member `key` among members in ascending order of their keys. -/
def put (key : String) (value : Json) : List (String × Json) → List (String × Json)
  | [] => [(key, value)]
  | (k, v) :: members =>
    if key < k then (key, value) :: (k, v) :: members
    else if key = k then (key, value) :: members
    else (k, v) :: put key value members

inductive Frame where
  /-- An array with its complete items, last one first. -/
  | array (items : List Json)
  /-- An object with its complete members, and the key whose value is open. -/
  | object (members : List (String × Json)) (key : String)

inductive Awaited where
  | value
  /-- The first item of the array just opened, or its end. -/
  | item
  /-- A key of the object with the given members, or its end when it was just opened. -/
  | key (members : List (String × Json)) (first : Bool)
  | colon (members : List (String × Json)) (key : String)
  | continuation (v : Json)

/-- A document read up to some lexeme: what is open, innermost first, and what has to follow. -/
structure Progress where
  frames : List Frame
  awaited : Awaited

/-- The most arrays and objects that may be open at once. -/
def maxDepth : Nat := 127

namespace Progress

def start (p : Progress) : Lexeme → Option Progress
  | .scalar v => some { p with awaited := .continuation v }
  | .string s => some { p with awaited := .continuation (.string s) }
  | .leftBracket =>
    if p.frames.length < maxDepth then some ⟨.array [] :: p.frames, .item⟩ else none
  | .leftBrace =>
    if p.frames.length < maxDepth then some { p with awaited := .key [] true } else none
  | _ => none

/-- Takes the lexeme after the complete value `v`. -/
def extend (p : Progress) (v : Json) (l : Lexeme) : Option Progress :=
  match l, p.frames with
  | .comma, .array items :: frames => some ⟨.array (v :: items) :: frames, .value⟩
  | .rightBracket, .array items :: frames =>
    some ⟨frames, .continuation (.array (v :: items).reverse)⟩
  | .comma, .object members key :: frames => some ⟨frames, .key (put key v members) false⟩
  | .rightBrace, .object members key :: frames =>
    some ⟨frames, .continuation (.object (put key v members))⟩
  | _, _ => none

def step (p : Progress) (l : Lexeme) : Option Progress :=
  match p.awaited with
  | .value => p.start l
  | .item =>
    match l, p.frames with
    | .rightBracket, .array _ :: frames => some ⟨frames, .continuation (.array [])⟩
    | _, _ => p.start l
  | .key members first =>
    match l with
    | .string key => some { p with awaited := .colon members key }
    | .rightBrace => if first then some { p with awaited := .continuation (.object []) } else none
    | _ => none
  | .colon members key =>
    match l with
    | .colon => some ⟨.object members key :: p.frames, .value⟩
    | _ => none
  | .continuation v => p.extend v l

/-- The value of the whole document, at its end. -/
def finish? (p : Progress) : Option Json :=
  match p.awaited, p.frames with
  | .continuation v, [] => some v
  | _, _ => none

end Progress

/-- The value that a document writes, if it is one. -/
def parse? (text : String) : Option Json := do
  let lexemes ← Lexeme.scan [] text.toList
  let p ← lexemes.foldlM Progress.step ⟨[], .value⟩
  p.finish?

/-- The library that reads and writes documents in this way. -/
def library : Library where
  parse text :=
    match parse? text with
    | some value => .ok value
    | none => .error "it does not hold exactly one value"
  compact := compact

end FormulaTree.Json
