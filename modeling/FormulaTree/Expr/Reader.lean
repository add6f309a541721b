import FormulaTree.Expr.Basic
import FormulaTree.Token.Basic

/-!
# Reading expressions from tokens

Comparisons, sums, products and ranges bind in this order, loosest first, and associate to the left;
a sign takes the single operand behind it. `Progress` is a formula read up to some token: the
constructs still open, innermost first, and what has to follow. One token at a time moves it on, so
whether a formula can still be completed is seen from `Progress` alone.

A `Reader` reads from a list of tokens and can be called again: it goes on where it stopped, and
what a failed call left open or counted still counts against the limits.
-/

namespace FormulaTree

/-- The most parentheses, calls and signs that may be open at once. -/
def maxNesting : Nat := 128

/-- The most binary operators that one formula may hold. -/
def maxOperators : Nat := 2048

/-- What should have stood where reading stopped. -/
inductive Expectation where
  | token (text : String)
  | operand
  /-- Nothing: the formula was complete. -/
  | endOfInput
  /-- The sign `=`, in place of `==`. -/
  | singleEquals
  | shallowerNesting
  | fewerOperators
deriving DecidableEq, Repr

/-- Whether a limit is exceeded, which shows only once the token at fault has been taken. -/
def Expectation.isLimit : Expectation → Bool
  | shallowerNesting | fewerOperators => true
  | _ => false

/-- A token that cannot stand where it does, and what was expected there. The token is given by its
text, which is empty at the end of the input. -/
structure Mismatch where
  expected : Expectation
  found : String
  place : Position
deriving DecidableEq, Repr

/-- A construct that is still open. -/
inductive Frame where
  | sign (s : Sign)
  | operator (left : Expr) (o : BinaryOp)
  | paren
  /-- A call with its complete arguments, last one first. -/
  | call (name : String) (args : List Expr)

namespace Frame

/-- How many levels of nesting the construct adds. -/
def depth : Frame → Nat
  | operator _ _ => 0
  | sign _ | paren | call _ _ => 1

def nestingOf : List Frame → Nat
  | [] => 0
  | f :: fs => f.depth + nestingOf fs

/-- Puts the pending signs in front of `e`. -/
def applySigns (e : Expr) : List Frame → Expr × List Frame
  | .sign s :: frames => applySigns (.unary s e) frames
  | frames => (e, frames)

/-- Makes `e` the right operand of the pending operators that bind at least as tightly as
`precedence`. -/
def applyOperators (precedence : Nat) (e : Expr) : List Frame → Expr × List Frame
  | .operator left o :: frames =>
    if precedence ≤ o.precedence then applyOperators precedence (.binary left o e) frames
    else (e, .operator left o :: frames)
  | frames => (e, frames)

end Frame

inductive Awaited where
  | operand
  /-- The first argument of the call just opened, or the parenthesis that closes it. -/
  | argument
  /-- Anything that can stand after the operand `e`, which was just read. -/
  | continuation (e : Expr)

/-- A formula read up to some token. -/
structure Progress where
  /-- The open constructs, innermost first. -/
  frames : List Frame
  awaited : Awaited
  /-- The levels of nesting outside `frames`. -/
  outer : Nat
  operators : Nat

namespace Progress

def nesting (p : Progress) : Nat :=
  p.outer + Frame.nestingOf p.frames

def enter (p : Progress) (f : Frame) (awaited : Awaited) : Except Expectation Progress :=
  if p.nesting < maxNesting then .ok { p with frames := f :: p.frames, awaited }
  else .error .shallowerNesting

/-- Takes a token where an operand has to start. -/
def start (p : Progress) : Token → Except Expectation Progress
  | .number text => .ok { p with awaited := .continuation (.number text) }
  | .string contents => .ok { p with awaited := .continuation (.string contents) }
  | .name text => .ok { p with awaited := .continuation (.name text) }
  | .leftParen => p.enter .paren .operand
  | .op o =>
    match o.sign? with
    | some s => p.enter (.sign s) .operand
    | none => .error .operand
  | .doubleEquals => .error .singleEquals
  | .rightParen | .comma | .ending => .error .operand

/-- Takes the operator `o` after the complete operand `e`. -/
def operate (p : Progress) (e : Expr) (o : BinaryOp) : Except Expectation Progress :=
  let (left, frames) := Frame.applyOperators o.precedence e p.frames
  if p.operators < maxOperators then
    .ok { p with
      frames := .operator left o :: frames, awaited := .operand, operators := p.operators + 1 }
  else
    .error .fewerOperators

/-- Takes the token after the complete operand `e`, to which no sign is left to apply. -/
def extend (p : Progress) (e : Expr) (t : Token) : Except Expectation Progress :=
  match t with
  | .op o => p.operate e o
  | .doubleEquals => .error .singleEquals
  | _ =>
    match t, Frame.applyOperators 0 e p.frames with
    | .rightParen, (inner, .paren :: frames) =>
      .ok { p with frames, awaited := .continuation (.paren inner) }
    | .rightParen, (last, .call name args :: frames) =>
      .ok { p with frames, awaited := .continuation (.call name (last :: args).reverse) }
    | .comma, (last, .call name args :: frames) =>
      .ok { p with frames := .call name (last :: args) :: frames, awaited := .operand }
    | _, (_, []) => .error .endOfInput
    | _, _ => .error (.token ")")

/-- Applies the pending signs to the operand just read, unless `t` shows that the operand is only
the name of a call. -/
def applySigns (p : Progress) (t : Token) : Progress :=
  match p.awaited, t with
  | .continuation (.name _), .leftParen => p
  | .continuation e, _ =>
    let (e, frames) := Frame.applySigns e p.frames
    { p with frames, awaited := .continuation e }
  | _, _ => p

/-- Takes a token, once the signs before it are applied. -/
def step (p : Progress) (t : Token) : Except Expectation Progress :=
  match p.awaited with
  | .operand => p.start t
  | .argument =>
    match t, p.frames with
    | .rightParen, .call name _ :: frames =>
      .ok { p with frames, awaited := .continuation (.call name []) }
    | _, _ => p.start t
  | .continuation e =>
    match t, e with
    | .leftParen, .name text => p.enter (.call text []) .argument
    | _, _ => p.extend e t

/-- The whole formula, at the end of the input. -/
def finish (p : Progress) : Except Expectation Expr :=
  match p.awaited with
  | .operand | .argument => .error .operand
  | .continuation e =>
    match Frame.applyOperators 0 e p.frames with
    | (e, []) => .ok e
    | _ => .error (.token ")")

end Progress

structure Stop where
  result : Except Expectation Expr
  progress : Progress
  rest : List Token.Placed

namespace Progress

/-- Takes tokens up to the end of the formula or up to the first that cannot stand where it does. A
token that exceeds a limit is taken, every other one at fault is not. -/
def run (p : Progress) : List Token.Placed → Stop
  | [] => let p := p.applySigns .ending; ⟨p.finish, p, []⟩
  | t :: ts =>
    let p := p.applySigns t.token
    if t.token = .ending then
      ⟨p.finish, p, t :: ts⟩
    else
      match p.step t.token with
      | .ok p => p.run ts
      | .error cause => ⟨.error cause, p, if cause.isLimit then ts else t :: ts⟩

end Progress

/-- A list of tokens, read up to some place. -/
structure Reader where
  /-- The last token of the whole list. -/
  last? : Option Token.Placed
  rest : List Token.Placed
  /-- The levels of nesting that failed calls left open. -/
  nesting : Nat
  /-- The binary operators of all calls. -/
  operators : Nat

namespace Reader

def ofTokens (tokens : List Token.Placed) : Reader :=
  { last? := tokens.getLast?, rest := tokens, nesting := 0, operators := 0 }

/-- A mismatch at the next token; when there is none, at the last token of the list. -/
def mismatch (r : Reader) (expected : Expectation) : Mismatch :=
  match r.rest.head? <|> r.last? with
  | some t => ⟨expected, t.token.text, t.place⟩
  | none => ⟨expected, "", .start⟩

/-- Reads one complete formula; anything left over is a mismatch. -/
def read (r : Reader) : Except Mismatch Expr × Reader :=
  let stop := Progress.run ⟨[], .operand, r.nesting, r.operators⟩ r.rest
  let r := { r with
    rest := stop.rest, nesting := stop.progress.nesting, operators := stop.progress.operators }
  (stop.result.mapError r.mismatch, r)

end Reader

end FormulaTree
