import FormulaTree.Expr.Reader

/-!
# Recursive descent

The grammar as functions that call one another: an expression of a level reads one of the next level
and then the operators behind it, and an operand reads an expression between its parentheses. Two
counters are raised and lowered on the way. It is checked whether a counter is lowered below zero or
the end of the input is passed, and a descent that goes deeper than it may has no outcome.

A reader, which keeps the open constructs in a list instead, does what the descent does. So no check
fails, and the depth that a descent needs is known beforehand.
-/

namespace FormulaTree

/-- The next token; behind the last one there is the end of the input. -/
def Token.ahead (ts : List Token.Placed) : Token :=
  (ts.head?.map Token.Placed.token).getD .ending

/-- What is left to read, and what is counted. -/
structure Cursor where
  rest : List Token.Placed
  nesting : Nat
  operators : Nat

/-- Why a descent gives up. -/
inductive Fault where
  /-- The next token cannot stand where it does. -/
  | refused (cause : Expectation)
  /-- A level of nesting is left that was not entered. -/
  | underflow
  /-- The end of the input is passed. -/
  | overrun

/-- A computation that moves a cursor, whether it gives up or not. It may also have no outcome. -/
abbrev Descent := ExceptT Fault (StateT Cursor Option)

namespace Descent

def current : Descent Token := do
  return Token.ahead (← get).rest

def refuse {α : Type} (cause : Expectation) : Descent α :=
  throw (.refused cause)

def advance : Descent Unit := do
  let s ← get
  if Token.ahead s.rest = .ending then
    throw .overrun
  else
    set { s with rest := s.rest.tail }

def enter : Descent Unit := do
  let s ← get
  if s.nesting < maxNesting then
    set { s with nesting := s.nesting + 1 }
  else
    refuse .shallowerNesting

def leave : Descent Unit := do
  let s ← get
  if s.nesting = 0 then
    throw .underflow
  else
    set { s with nesting := s.nesting - 1 }

def count : Descent Unit := do
  let s ← get
  if s.operators < maxOperators then
    set { s with operators := s.operators + 1 }
  else
    refuse .fewerOperators

/-- Reads the parenthesis that closes a construct. -/
def close : Descent Unit := do
  if (← current) = .rightParen then
    advance
    leave
  else
    refuse (.token ")")

/-- A computation without an outcome. -/
def unfinished {α : Type} : Descent α :=
  fun _ => none

-- The first number is how many calls deep a function may go, further turns of a loop included.
mutual

/-- Reads an expression of a level. -/
def expression : Nat → Nat → Descent Expr
  | 0, _ => unfinished
  | depth + 1, level => do
    if level < 5 then
      let left ← expression depth (level + 1)
      furtherOperators depth level left
    else
      operand depth

/-- Reads the operators of a level behind their left operand. -/
def furtherOperators : Nat → Nat → Expr → Descent Expr
  | 0, _, _ => unfinished
  | depth + 1, level, left => do
    match ← current with
    | .op o =>
      if o.precedence = level then
        advance
        count
        let right ← expression depth (level + 1)
        furtherOperators depth level (.binary left o right)
      else
        return left
    | .doubleEquals => if level = 1 then refuse .singleEquals else return left
    | _ => return left

def operand : Nat → Descent Expr
  | 0 => unfinished
  | depth + 1 => do
    match ← current with
    | .number text =>
      advance
      return .number text
    | .string contents =>
      advance
      return .string contents
    | .name text =>
      advance
      if (← current) = .leftParen then
        advance
        enter
        arguments depth text
      else
        return .name text
    | .leftParen =>
      advance
      enter
      let inner ← expression depth 1
      close
      return .paren inner
    | .op o =>
      match o.sign? with
      | some s =>
        advance
        enter
        let e ← operand depth
        leave
        return .unary s e
      | none => refuse .operand
    | .doubleEquals => refuse .singleEquals
    | .rightParen | .comma | .ending => refuse .operand

/-- Reads the arguments of a call, up to its closing parenthesis. -/
def arguments : Nat → String → Descent Expr
  | 0, _ => unfinished
  | depth + 1, f => do
    if (← current) = .rightParen then
      close
      return .call f []
    else
      let e ← expression depth 1
      furtherArguments depth f [e]

/-- Reads the arguments of a call behind `args`, which come last one first. -/
def furtherArguments : Nat → String → List Expr → Descent Expr
  | 0, _, _ => unfinished
  | depth + 1, f, args => do
    if (← current) = .comma then
      advance
      let e ← expression depth 1
      furtherArguments depth f (e :: args)
    else
      close
      return .call f args.reverse

end

/-- Reads one complete formula. -/
def formula (depth : Nat) : Descent Expr := do
  let e ← expression depth 1
  if (← current) = .ending then
    return e
  else
    refuse .endOfInput

/-! ## Outcomes -/

variable {α β : Type} {x : Descent α} {f : α → Descent β} {s t u : Cursor} {a : α}
  {b : Except Fault β} {fault : Fault}

/-- The outcome of a computation, and the cursor after it. -/
def Gives (x : Descent α) (s : Cursor) (a : Except Fault α) (t : Cursor) : Prop :=
  (x.run).run s = some (a, t)

theorem Gives.bind (hx : Gives x s (.ok a) t) (hf : Gives (f a) t b u) : Gives (x >>= f) s b u := by
  unfold Gives at *
  rw [ExceptT.run_bind, StateT.run_bind, hx]
  exact hf

theorem Gives.bind_error (hx : Gives x s (.error fault) t) : Gives (x >>= f) s (.error fault) t := by
  unfold Gives at *
  rw [ExceptT.run_bind, StateT.run_bind, hx]
  rfl

theorem gives_pure (a : α) (s : Cursor) : Gives (pure a) s (.ok a) s := rfl

theorem gives_refuse (cause : Expectation) (s : Cursor) :
    Gives (refuse cause : Descent α) s (.error (.refused cause)) s := rfl

theorem gives_current (s : Cursor) : Gives current s (.ok (Token.ahead s.rest)) s := rfl

theorem gives_get (s : Cursor) : Gives get s (.ok s) s := rfl

theorem gives_advance {p : Token.Placed} {ts : List Token.Placed} (hp : p.token ≠ .ending)
    (m n : Nat) : Gives advance ⟨p :: ts, m, n⟩ (.ok ()) ⟨ts, m, n⟩ := by
  refine Gives.bind (gives_get _) ?_
  rw [if_neg (show Token.ahead (p :: ts) ≠ .ending from hp)]
  rfl

theorem gives_enter (s : Cursor) (h : s.nesting < maxNesting) :
    Gives enter s (.ok ()) { s with nesting := s.nesting + 1 } := by
  refine Gives.bind (gives_get _) ?_
  rw [if_pos h]
  rfl

theorem gives_enter_of_le (s : Cursor) (h : maxNesting ≤ s.nesting) :
    Gives enter s (.error (.refused .shallowerNesting)) s := by
  refine Gives.bind (gives_get _) ?_
  rw [if_neg (Nat.not_lt_of_le h)]
  rfl

theorem gives_leave (ts : List Token.Placed) (m n : Nat) :
    Gives leave ⟨ts, m + 1, n⟩ (.ok ()) ⟨ts, m, n⟩ := by
  refine Gives.bind (gives_get _) ?_
  rw [if_neg (Nat.succ_ne_zero m)]
  rfl

theorem gives_count (s : Cursor) (h : s.operators < maxOperators) :
    Gives count s (.ok ()) { s with operators := s.operators + 1 } := by
  refine Gives.bind (gives_get _) ?_
  rw [if_pos h]
  rfl

theorem gives_count_of_le (s : Cursor) (h : maxOperators ≤ s.operators) :
    Gives count s (.error (.refused .fewerOperators)) s := by
  refine Gives.bind (gives_get _) ?_
  rw [if_neg (Nat.not_lt_of_le h)]
  rfl

theorem gives_close {p : Token.Placed} {ts : List Token.Placed} (hp : p.token = .rightParen)
    (m n : Nat) : Gives close ⟨p :: ts, m + 1, n⟩ (.ok ()) ⟨ts, m, n⟩ := by
  refine Gives.bind (gives_current _) ?_
  rw [if_pos (show Token.ahead (p :: ts) = .rightParen from hp)]
  exact Gives.bind (gives_advance (by simp [hp]) _ _) (gives_leave ts m n)

theorem gives_close_of_ne (s : Cursor) (h : Token.ahead s.rest ≠ .rightParen) :
    Gives close s (.error (.refused (.token ")"))) s := by
  refine Gives.bind (gives_current _) ?_
  rw [if_neg h]
  rfl

end Descent

end FormulaTree
