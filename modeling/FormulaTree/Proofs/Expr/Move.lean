import FormulaTree.Expr.Reader
import FormulaTree.Proofs.Expr.Grammar

/-!
# Moves of a reader

What one token does to a formula read so far. `Progress.Move` lists the moves that succeed, with the
conditions on them, and `step` makes exactly these. `Progress.feed` makes them one after another, and
a whole run is a feed up to the end of the formula.
-/

namespace FormulaTree

/-- The tokens in front of the first `Token.ending`. -/
def Token.beforeEnding (ts : List Token.Placed) : List Token :=
  (ts.map Token.Placed.token).takeWhile (· ≠ .ending)

namespace Progress

/-- Whether an operand can start. -/
def AwaitsOperand (p : Progress) : Prop :=
  p.awaited = .operand ∨ p.awaited = .argument

/-- What a token does to a formula whose signs are applied. -/
inductive Move (p : Progress) : Token → Progress → Prop where
  | number (text : String) (hp : p.AwaitsOperand) :
      Move p (.number text) { p with awaited := .continuation (.number text) }
  | string (contents : String) (hp : p.AwaitsOperand) :
      Move p (.string contents) { p with awaited := .continuation (.string contents) }
  | name (text : String) (hp : p.AwaitsOperand) :
      Move p (.name text) { p with awaited := .continuation (.name text) }
  | sign (s : Sign) (hp : p.AwaitsOperand) (hlt : p.nesting < maxNesting) :
      Move p s.token { p with frames := .sign s :: p.frames, awaited := .operand }
  | openParen (hp : p.AwaitsOperand) (hlt : p.nesting < maxNesting) :
      Move p .leftParen { p with frames := .paren :: p.frames, awaited := .operand }
  | openCall (f : String) (hp : p.awaited = .continuation (.name f))
      (hlt : p.nesting < maxNesting) :
      Move p .leftParen { p with frames := .call f [] :: p.frames, awaited := .argument }
  | operator (o : BinaryOp) {e left : Expr} {fs : List Frame} (hp : p.awaited = .continuation e)
      (hfs : Frame.applyOperators o.precedence e p.frames = (left, fs))
      (hlt : p.operators < maxOperators) :
      Move p (.op o) { p with
        frames := .operator left o :: fs, awaited := .operand, operators := p.operators + 1 }
  | closeParen {e inner : Expr} {fs : List Frame} (hp : p.awaited = .continuation e)
      (hfs : Frame.applyOperators 0 e p.frames = (inner, .paren :: fs)) :
      Move p .rightParen { p with frames := fs, awaited := .continuation (.paren inner) }
  | closeCall {e last : Expr} {f : String} {args : List Expr} {fs : List Frame}
      (hp : p.awaited = .continuation e)
      (hfs : Frame.applyOperators 0 e p.frames = (last, .call f args :: fs)) :
      Move p .rightParen { p with
        frames := fs, awaited := .continuation (.call f (last :: args).reverse) }
  | closeEmpty {f : String} {args : List Expr} {fs : List Frame} (hp : p.awaited = .argument)
      (hfs : p.frames = .call f args :: fs) :
      Move p .rightParen { p with frames := fs, awaited := .continuation (.call f []) }
  | comma {e last : Expr} {f : String} {args : List Expr} {fs : List Frame}
      (hp : p.awaited = .continuation e)
      (hfs : Frame.applyOperators 0 e p.frames = (last, .call f args :: fs)) :
      Move p .comma { p with frames := .call f (last :: args) :: fs, awaited := .operand }

theorem move_of_start {p q : Progress} {t : Token} (hp : p.AwaitsOperand)
    (h : p.start t = .ok q) : Move p t q := by
  cases t with
  | number text => cases h; exact .number text hp
  | string contents => cases h; exact .string contents hp
  | name text => cases h; exact .name text hp
  | leftParen =>
    simp only [start, enter] at h
    split at h
    · rename_i hlt
      cases h
      exact .openParen hp hlt
    · exact absurd h (by simp)
  | op o =>
    simp only [start] at h
    split at h
    · rename_i s hs
      unfold enter at h
      split at h
      · rename_i hlt
        cases h
        rw [← Sign.token_eq_of_sign? hs]
        exact .sign s hp hlt
      · exact absurd h (by simp)
    · exact absurd h (by simp)
  | _ => exact absurd h (by simp [start])

theorem move_of_extend {p q : Progress} {e : Expr} {t : Token}
    (hp : p.awaited = .continuation e) (h : p.extend e t = .ok q) : Move p t q := by
  cases t with
  | op o =>
    simp only [extend, operate] at h
    split at h
    · rename_i hlt
      cases h
      exact .operator o hp rfl hlt
    · exact absurd h (by simp)
  | rightParen =>
    simp only [extend] at h
    generalize hfs : Frame.applyOperators 0 e p.frames = reduced at h
    obtain ⟨last, fs⟩ := reduced
    cases fs with
    | nil => exact absurd h (by simp)
    | cons f fs =>
      cases f with
      | paren => cases h; exact .closeParen hp hfs
      | call f args => cases h; exact .closeCall hp hfs
      | _ => exact absurd h (by simp)
  | comma =>
    simp only [extend] at h
    generalize hfs : Frame.applyOperators 0 e p.frames = reduced at h
    obtain ⟨last, fs⟩ := reduced
    cases fs with
    | nil => exact absurd h (by simp)
    | cons f fs =>
      cases f with
      | call f args => cases h; exact .comma hp hfs
      | _ => exact absurd h (by simp)
  | doubleEquals => exact absurd h (by simp [extend])
  | _ =>
    simp only [extend] at h
    generalize Frame.applyOperators 0 e p.frames = reduced at h
    obtain ⟨last, fs⟩ := reduced
    cases fs with
    | nil => exact absurd h (by simp)
    | cons f fs => cases f <;> exact absurd h (by simp)

theorem move_of_step {p q : Progress} {t : Token} (h : p.step t = .ok q) : Move p t q := by
  unfold step at h
  split at h
  · rename_i hp
    exact move_of_start (Or.inl hp) h
  -- Where the first argument may start, the call can also end.
  · rename_i hp
    split at h
    · rename_i hfs
      cases h
      exact .closeEmpty hp hfs
    · exact move_of_start (Or.inr hp) h
  -- Behind a name a parenthesis opens a call.
  · rename_i e hp
    split at h
    · rename_i text
      unfold enter at h
      split at h
      · rename_i hlt
        cases h
        exact .openCall text hp hlt
      · exact absurd h (by simp)
    · exact move_of_extend hp h

theorem step_of_move {p q : Progress} {t : Token} (h : Move p t q) : p.step t = .ok q := by
  cases h with
  | number text hp => rcases hp with hp | hp <;> simp only [step, hp, start]
  | string contents hp => rcases hp with hp | hp <;> simp only [step, hp, start]
  | name text hp => rcases hp with hp | hp <;> simp only [step, hp, start]
  | sign s hp hlt =>
    rcases hp with hp | hp <;> cases s <;>
      simp only [step, hp, Sign.token, start, BinaryOp.sign?, enter, if_pos hlt]
  | openParen hp hlt =>
    rcases hp with hp | hp <;> simp only [step, hp, start, enter, if_pos hlt]
  | openCall f hp hlt => simp only [step, hp, enter, if_pos hlt]
  | operator o hp hfs hlt => simp only [step, hp, extend, operate, hfs, if_pos hlt]
  | closeParen hp hfs => simp only [step, hp, extend, hfs]
  | closeCall hp hfs => simp only [step, hp, extend, hfs]
  | closeEmpty hp hfs => simp only [step, hp, hfs]
  | comma hp hfs => simp only [step, hp, extend, hfs]

/-! ## Signs -/

theorem applySigns_of_awaitsOperand {p : Progress} (hp : p.AwaitsOperand) (t : Token) :
    p.applySigns t = p := by
  unfold applySigns
  rcases hp with hp | hp <;> rw [hp]

theorem applySigns_name {p : Progress} {f : String} (hp : p.awaited = .continuation (.name f)) :
    p.applySigns .leftParen = p := by
  unfold applySigns
  rw [hp]

theorem applySigns_of_continuation {p : Progress} {e : Expr} {t : Token}
    (hp : p.awaited = .continuation e) (hcall : t = .leftParen → ∀ f, e ≠ .name f) :
    p.applySigns t = { p with
      frames := (Frame.applySigns e p.frames).2,
      awaited := .continuation (Frame.applySigns e p.frames).1 } := by
  unfold applySigns
  rw [hp]
  split
  · rename_i f heq
    exact absurd (Awaited.continuation.inj heq) (hcall rfl f)
  · rename_i heq _
    cases heq
    rfl
  · rename_i hne _
    exact absurd rfl (hne e)

/-! ## Feeding tokens -/

/-- Takes a token, once the signs before it are applied. -/
def take (p : Progress) (t : Token) : Except Expectation Progress :=
  (p.applySigns t).step t

/-- Takes tokens one after another. -/
def feed (p : Progress) : List Token → Except Expectation Progress
  | [] => .ok p
  | t :: ts => (p.take t).bind fun q => q.feed ts

theorem feed_cons {p q : Progress} {t : Token} (h : p.take t = .ok q) (ts : List Token) :
    p.feed (t :: ts) = q.feed ts := by
  rw [feed, h]
  rfl

theorem exists_of_feed_cons {p q : Progress} {t : Token} {ts : List Token}
    (h : p.feed (t :: ts) = .ok q) : ∃ r, p.take t = .ok r ∧ r.feed ts = .ok q := by
  rw [feed] at h
  cases htake : p.take t with
  | error cause =>
    rw [htake] at h
    exact absurd h (by simp [Except.bind])
  | ok r =>
    rw [htake] at h
    exact ⟨r, rfl, h⟩

theorem feed_append (p : Progress) (ts us : List Token) :
    p.feed (ts ++ us) = (p.feed ts).bind fun q => q.feed us := by
  induction ts generalizing p with
  | nil => rfl
  | cons t ts ih =>
    rw [List.cons_append, feed, feed]
    cases p.take t with
    | error cause => rfl
    | ok q => exact ih q

theorem feed_append_of_feed {p q : Progress} {ts : List Token} (h : p.feed ts = .ok q)
    (us : List Token) : p.feed (ts ++ us) = q.feed us := by
  rw [feed_append, h]
  rfl

/-- The end of the formula, once the signs before it are applied. -/
def complete (p : Progress) : Except Expectation Expr :=
  (p.applySigns .ending).finish

theorem run_result (p : Progress) (ts : List Token.Placed) :
    (p.run ts).result = (p.feed (Token.beforeEnding ts)).bind complete := by
  induction ts generalizing p with
  | nil => rfl
  | cons t ts ih =>
    unfold run Token.beforeEnding
    by_cases hending : t.token = .ending
    · rw [List.map_cons, List.takeWhile_cons_of_neg (by simp [hending])]
      simp only [hending]
      rfl
    · rw [List.map_cons, List.takeWhile_cons_of_pos (by simp [hending]), feed, take]
      simp only [if_neg hending]
      cases (p.applySigns t.token).step t.token with
      | error cause => rfl
      | ok q => exact ih q

end Progress

/-- What a fresh reader reads is what its tokens come to. -/
theorem Reader.read_ofTokens (ts : List Token.Placed) (e : Expr) :
    (Reader.ofTokens ts).read.1 = .ok e ↔
      ((Progress.mk [] .operand 0 0).feed (Token.beforeEnding ts)).bind Progress.complete =
        .ok e := by
  rw [← Progress.run_result]
  unfold Reader.read Reader.ofTokens
  dsimp only
  cases (Progress.run ⟨[], .operand, 0, 0⟩ ts).result with
  | error cause => simp [Except.mapError]
  | ok d => simp [Except.mapError]

end FormulaTree
