import FormulaTree.Proofs.Expr.Completeness

/-!
# Where a reader stops

A mismatch stands at the earliest token that no formula can have there, unless a limit is exceeded.
Up to that token the formula can still be completed: an operand is put where one is awaited, and
then the open parentheses and calls are closed one by one. What was expected can indeed stand there.
-/

namespace FormulaTree

namespace Progress

variable {start : Nat} {ts : List Token} {p q : Progress} {t : Token} {cause : Expectation}

/-! ## Completing a formula -/

/-- Whether some tokens complete the formula read so far. -/
def Completes (p : Progress) : Prop :=
  ∃ ts, (∀ t ∈ ts, t ≠ .ending) ∧ ∃ e, (p.feed ts).bind complete = .ok e

theorem Completes.of_complete {e : Expr} (h : p.complete = .ok e) : p.Completes :=
  ⟨[], by simp, e, h⟩

theorem Completes.of_take (h : q.Completes) (ht : t ≠ .ending) (htake : p.take t = .ok q) :
    p.Completes := by
  obtain ⟨ts, hts, e, he⟩ := h
  refine ⟨t :: ts, List.forall_mem_cons.mpr ⟨ht, hts⟩, e, ?_⟩
  rw [feed_cons htake, he]

/-- Signs wait only for the parenthesis of a call. -/
theorem applySigns_eq_ending (h : t = .leftParen → ∀ f, p.awaited ≠ .continuation (.name f)) :
    p.applySigns t = p.applySigns .ending := by
  cases hp : p.awaited with
  | operand | argument =>
    have hawaits : p.AwaitsOperand := by simp [AwaitsOperand, hp]
    rw [applySigns_of_awaitsOperand hawaits, applySigns_of_awaitsOperand hawaits]
  | continuation e =>
    rw [applySigns_of_continuation hp fun ht f he => h ht f (by rw [hp, he]),
      applySigns_of_continuation hp fun ht => absurd ht (by decide)]

theorem take_eq_step (ht : t ≠ .leftParen) : p.take t = (p.applySigns .ending).step t := by
  rw [take, applySigns_eq_ending fun heq => absurd heq ht]

/-- Behind an operand only a parenthesis or a call can keep a formula open. -/
theorem Invariant.head_of_reduce {e d : Expr} {f : Frame} {fs : List Frame}
    (h : Invariant start ts p) (hsettled : p.Settled) (hp : p.awaited = .continuation e)
    (hfs : Frame.applyOperators 0 e p.frames = (d, f :: fs)) :
    f = .paren ∨ ∃ name args, f = .call name args := by
  obtain ⟨-, -, -, hlevel⟩ := h.reduce hsettled hp (Nat.zero_le 5) hfs
  cases f with
  | paren => exact .inl rfl
  | call name args => exact .inr ⟨name, args, rfl⟩
  | sign s => exact absurd hlevel (by decide : ¬5 ≤ max 0 1)
  | operator left o =>
    have hone := o.one_le_precedence
    simp only [Frame.level] at hlevel
    omega

/-- A closing parenthesis can stand where some construct is open behind an operand. -/
theorem Invariant.exists_close {e d : Expr} {f : Frame} {fs : List Frame}
    (h : Invariant start ts p) (hsettled : p.Settled) (hp : p.awaited = .continuation e)
    (hfs : Frame.applyOperators 0 e p.frames = (d, f :: fs)) :
    ∃ q c, p.step .rightParen = .ok q ∧ q.awaited = .continuation c ∧ q.frames = fs := by
  rcases h.head_of_reduce hsettled hp hfs with rfl | ⟨name, args, rfl⟩
  · exact ⟨_, _, step_of_move (.closeParen hp hfs), rfl, rfl⟩
  · exact ⟨_, _, step_of_move (.closeCall hp hfs), rfl, rfl⟩

theorem length_applySigns_le (e : Expr) (fs : List Frame) :
    (Frame.applySigns e fs).2.length ≤ fs.length := by
  induction fs generalizing e with
  | nil => exact Nat.le_refl 0
  | cons f fs ih =>
    cases f with
    | sign s => exact Nat.le_succ_of_le (ih (.unary s e))
    | _ => exact Nat.le_refl _

theorem length_applyOperators_le (m : Nat) (e : Expr) (fs : List Frame) :
    (Frame.applyOperators m e fs).2.length ≤ fs.length := by
  induction fs generalizing e with
  | nil => exact Nat.le_refl 0
  | cons f fs ih =>
    cases f with
    | operator left o =>
      unfold Frame.applyOperators
      split
      · exact Nat.le_succ_of_le (ih (.binary left o e))
      · exact Nat.le_refl _
    | _ => exact Nat.le_refl _

/-- Behind an operand a formula is completed by closing what is open. -/
theorem Invariant.completes_of_continuation {e : Expr} (h : Invariant start ts p)
    (hp : p.awaited = .continuation e) : p.Completes := by
  -- Each closing parenthesis leaves fewer constructs open.
  induction hn : p.frames.length using Nat.strong_induction_on generalizing p e ts with
  | h n ih =>
    obtain ⟨happlied, hsettled⟩ := h.applySigns .ending
    have hsettled := hsettled (by decide)
    have happly := applySigns_of_continuation (t := .ending) hp fun ht => absurd ht (by decide)
    have hr : (p.applySigns .ending).awaited = .continuation (Frame.applySigns e p.frames).1 := by
      rw [happly]
    have hsigns := length_applySigns_le e p.frames
    have hframes : (p.applySigns .ending).frames = (Frame.applySigns e p.frames).2 := by
      rw [happly]
    cases hfs : Frame.applyOperators 0 (Frame.applySigns e p.frames).1
        (p.applySigns .ending).frames with
    | mk d fs =>
      cases fs with
      | nil =>
        refine .of_complete (e := d) ?_
        unfold Progress.complete finish
        rw [hr]
        dsimp only
        rw [hfs]
      | cons f fs =>
        obtain ⟨q, c, hstep, hq, hqframes⟩ := happlied.exists_close hsettled hr hfs
        have htake : p.take .rightParen = .ok q := by
          rw [take_eq_step (by decide), hstep]
        have hlength := length_applyOperators_le 0 (Frame.applySigns e p.frames).1
          (p.applySigns .ending).frames
        rw [hfs, hframes, List.length_cons] at hlength
        have hless : q.frames.length < n := by
          rw [hqframes]
          omega
        have hinvariant := happlied.move (fun _ => hsettled) (move_of_step hstep)
        exact (ih _ hless hinvariant hq rfl).of_take (by decide) htake

theorem take_number (hp : p.AwaitsOperand) (text : String) :
    p.take (.number text) = .ok { p with awaited := .continuation (.number text) } :=
  take_of_move hp (.number text hp)

theorem Invariant.completes_of_awaitsOperand (h : Invariant start ts p) (hp : p.AwaitsOperand) :
    p.Completes := by
  have hnumber := h.move (fun _ e he => by rcases hp with hp | hp <;> simp [hp] at he)
    (.number "0" hp)
  exact (hnumber.completes_of_continuation rfl).of_take (by decide) (take_number hp "0")

/-- A formula that was read without a mismatch can be completed. -/
theorem Invariant.completes (h : Invariant start ts p) : p.Completes := by
  cases hp : p.awaited with
  | operand => exact h.completes_of_awaitsOperand (.inl hp)
  | argument => exact h.completes_of_awaitsOperand (.inr hp)
  | continuation e => exact h.completes_of_continuation hp

/-! ## What a mismatch expects -/

/-- What the expectation of a mismatch says of the formula read so far, its signs applied. -/
inductive Refuses (p : Progress) : Expectation → Prop where
  | operand (hp : p.AwaitsOperand) : Refuses p .operand
  | closing {e d : Expr} {f : Frame} {fs : List Frame} (hp : p.awaited = .continuation e)
      (hfs : Frame.applyOperators 0 e p.frames = (d, f :: fs)) : Refuses p (.token ")")
  | nothing {e d : Expr} (hp : p.awaited = .continuation e)
      (hfs : Frame.applyOperators 0 e p.frames = (d, [])) : Refuses p .endOfInput
  | equals : Refuses p .singleEquals

theorem refuses_of_enter {f : Frame} {awaited : Awaited} (h : p.enter f awaited = .error cause)
    (hcause : cause.isLimit = false) : p.Refuses cause := by
  unfold enter at h
  split at h
  · exact absurd h (by simp)
  · cases h
    exact absurd hcause (by decide)

theorem refuses_of_start (hp : p.AwaitsOperand) (h : p.start t = .error cause)
    (hcause : cause.isLimit = false) : p.Refuses cause := by
  cases t with
  | number _ | string _ | name _ => exact absurd h (by simp [Progress.start])
  | leftParen => exact refuses_of_enter h hcause
  | op o =>
    simp only [Progress.start] at h
    split at h
    · exact refuses_of_enter h hcause
    · cases h
      exact .operand hp
  | doubleEquals => cases h; exact .equals
  | rightParen | comma | ending => cases h; exact .operand hp

theorem refuses_of_extend {e : Expr} (hp : p.awaited = .continuation e)
    (h : p.extend e t = .error cause) (hcause : cause.isLimit = false) : p.Refuses cause := by
  cases t with
  | op o =>
    simp only [extend, operate] at h
    split at h
    · exact absurd h (by simp)
    · cases h
      exact absurd hcause (by decide)
  | doubleEquals => cases h; exact .equals
  -- Every other token is judged by what is open.
  | _ =>
    simp only [extend] at h
    generalize hfs : Frame.applyOperators 0 e p.frames = reduced at h
    obtain ⟨d, fs⟩ := reduced
    cases fs with
    | nil => cases h; exact .nothing hp hfs
    | cons f fs =>
      cases f <;> first | (cases h; exact .closing hp hfs) | exact absurd h (by simp)

theorem refuses_of_step (h : p.step t = .error cause) (hcause : cause.isLimit = false) :
    p.Refuses cause := by
  unfold step at h
  split at h
  · rename_i hp
    exact refuses_of_start (.inl hp) h hcause
  · rename_i hp
    split at h
    · exact absurd h (by simp)
    · exact refuses_of_start (.inr hp) h hcause
  · rename_i e hp
    split at h
    · exact refuses_of_enter h hcause
    · exact refuses_of_extend hp h hcause

theorem refuses_of_take (h : p.take t = .error cause) (hcause : cause.isLimit = false) :
    (p.applySigns .ending).Refuses cause := by
  rw [← applySigns_eq_ending (t := t)]
  · exact refuses_of_step h hcause
  -- The parenthesis of a call can only exceed a limit.
  · rintro rfl f hp
    rw [take, applySigns_name hp] at h
    simp only [step, hp, enter] at h
    split at h
    · exact absurd h (by simp)
    · cases h
      exact absurd hcause (by decide)

theorem refuses_of_complete (h : p.complete = .error cause) :
    (p.applySigns .ending).Refuses cause := by
  unfold Progress.complete finish at h
  generalize p.applySigns .ending = r at h
  cases hr : r.awaited with
  | operand => rw [hr] at h; cases h; exact .operand (.inl hr)
  | argument => rw [hr] at h; cases h; exact .operand (.inr hr)
  | continuation e =>
    rw [hr] at h
    dsimp only at h
    generalize hfs : Frame.applyOperators 0 e r.frames = reduced at h
    obtain ⟨d, fs⟩ := reduced
    cases fs with
    | nil => exact absurd h (by simp)
    | cons f fs => cases h; exact .closing hr hfs

/-- What would help after the formula read so far. -/
def Helps (p : Progress) : Expectation → Prop
  | .operand => ∀ text, ∃ q, p.take (.number text) = .ok q ∧ q.Completes
  | .token text => text = ")" ∧ ∃ q, p.take .rightParen = .ok q ∧ q.Completes
  | .endOfInput => ∃ e, p.complete = .ok e
  | .singleEquals | .shallowerNesting | .fewerOperators => True

theorem Invariant.helps (h : Invariant start ts p)
    (hrefuses : (p.applySigns .ending).Refuses cause) :
    p.Helps cause := by
  obtain ⟨happlied, hsettled⟩ := h.applySigns .ending
  have hsettled := hsettled (by decide)
  cases hrefuses with
  | operand hr =>
    intro text
    have htake : p.take (.number text) =
        .ok { p.applySigns .ending with awaited := .continuation (.number text) } := by
      rw [take_eq_step (by simp)]
      exact step_of_move (.number text hr)
    have hnumber := happlied.move (fun _ => hsettled) (.number text hr)
    exact ⟨_, htake, hnumber.completes⟩
  | closing hr hfs =>
    obtain ⟨q, c, hstep, -⟩ := happlied.exists_close hsettled hr hfs
    have hinvariant := happlied.move (fun _ => hsettled) (move_of_step hstep)
    refine ⟨rfl, q, ?_, hinvariant.completes⟩
    rw [take_eq_step (by decide), hstep]
  | nothing hr hfs =>
    rename_i d
    refine ⟨d, ?_⟩
    unfold Progress.complete finish
    rw [hr]
    dsimp only
    rw [hfs]
  | equals => trivial

/-! ## The token at fault -/

/-- Whether a token, or the end of the formula, cannot stand behind the formula read so far. -/
def Faults (p : Progress) (t : Token) (cause : Expectation) : Prop :=
  if t = .ending then p.complete = .error cause else p.take t = .error cause

theorem Faults.of_complete (ht : t = .ending) (h : p.complete = .error cause) :
    p.Faults t cause := by
  rw [Faults, if_pos ht]
  exact h

theorem Faults.of_take (ht : t ≠ .ending) (h : p.take t = .error cause) : p.Faults t cause := by
  rw [Faults, if_neg ht]
  exact h

theorem Faults.refuses (h : p.Faults t cause) (hcause : cause.isLimit = false) :
    (p.applySigns .ending).Refuses cause := by
  unfold Faults at h
  split at h
  · exact refuses_of_complete h
  · exact refuses_of_take h hcause

/-- A run stops at the first token at fault. -/
theorem run_error {ts : List Token.Placed} (h : (p.run ts).result = .error cause)
    (hcause : cause.isLimit = false) :
    ∃ before q, ts = before ++ (p.run ts).rest ∧ (∀ t ∈ before, t.token ≠ .ending) ∧
      p.feed (before.map Token.Placed.token) = .ok q ∧
      q.Faults (((p.run ts).rest.head?.map Token.Placed.token).getD .ending) cause := by
  induction ts generalizing p with
  | nil => exact ⟨[], p, rfl, by simp, rfl, h⟩
  | cons t ts ih =>
    unfold run at h ⊢
    by_cases hending : t.token = .ending
    · simp only [hending, ↓reduceIte] at h ⊢
      exact ⟨[], p, rfl, by simp, rfl, .of_complete hending h⟩
    · simp only [if_neg hending] at h ⊢
      cases hstep : (p.applySigns t.token).step t.token with
      | error c =>
        rw [hstep] at h
        obtain rfl : c = cause := Except.error.inj h
        simp only [hcause, Bool.false_eq_true, ↓reduceIte]
        exact ⟨[], p, rfl, by simp, rfl, .of_take hending hstep⟩
      | ok r =>
        rw [hstep] at h
        obtain ⟨before, q, hts, hbefore, hfeed, hfault⟩ := ih h
        refine ⟨t :: before, q, ?_, List.forall_mem_cons.mpr ⟨hending, hbefore⟩, ?_, hfault⟩
        · rw [List.cons_append, ← hts]
        · rw [List.map_cons, feed_cons (q := r) hstep, hfeed]

end Progress

/-! ## Lists of tokens -/

/-- Whether the end of the input stands behind the last token and nowhere else. -/
def Token.Ended (ts : List Token.Placed) : Prop :=
  ∃ us last, ts = us ++ [last] ∧ last.token = .ending ∧ ∀ t ∈ us, t.token ≠ .ending

theorem Token.beforeEnding_cons_ending {t : Token.Placed} (ht : t.token = .ending)
    (ts : List Token.Placed) : beforeEnding (t :: ts) = [] := by
  rw [beforeEnding, List.map_cons, List.takeWhile_cons_of_neg (by simpa using ht)]

theorem Token.beforeEnding_cons {t : Token.Placed} (ht : t.token ≠ .ending)
    (ts : List Token.Placed) : beforeEnding (t :: ts) = t.token :: beforeEnding ts := by
  rw [beforeEnding, List.map_cons, List.takeWhile_cons_of_pos (by simpa using ht), beforeEnding]

theorem Token.beforeEnding_append {us : List Token.Placed} (h : ∀ t ∈ us, t.token ≠ .ending)
    (vs : List Token.Placed) :
    beforeEnding (us ++ vs) = us.map Token.Placed.token ++ beforeEnding vs := by
  induction us with
  | nil => rfl
  | cons u us ih =>
    rw [List.forall_mem_cons] at h
    rw [List.cons_append, beforeEnding_cons h.1, ih h.2, List.map_cons, List.cons_append]

/-- A token whose place does not matter. -/
def Token.unplaced (t : Token) : Token.Placed := ⟨t, .start⟩

namespace Reader

open Progress (feed_append_of_feed)

variable {before more ts : List Token.Placed} {t : Token.Placed} {q : Progress}
  {cause : Expectation}

/-- Whether a fresh reader reads a formula from the list. -/
def Accepts (ts : List Token.Placed) : Prop :=
  ∃ e, (ofTokens ts).read.1 = .ok e

/-- Whether the list is the start of one that is accepted and has its only end at its end. -/
def CanContinue (ts : List Token.Placed) : Prop :=
  ∃ more, Token.Ended (ts ++ more) ∧ Accepts (ts ++ more)

/-- What would help behind the tokens `before`, by what was expected there. -/
def Helps (before : List Token.Placed) : Expectation → Prop
  | .operand => ∀ text place, CanContinue (before ++ [⟨.number text, place⟩])
  | .token text => text = ")" ∧ ∀ place, CanContinue (before ++ [⟨.rightParen, place⟩])
  | .endOfInput => ∀ place, Accepts (before ++ [⟨.ending, place⟩])
  | .singleEquals | .shallowerNesting | .fewerOperators => True

/-- Whether a fresh reader comes to `q` when it has taken the tokens `before`. -/
structure ComesTo (before : List Token.Placed) (q : Progress) : Prop where
  ne_ending : ∀ t ∈ before, t.token ≠ .ending
  feed_eq : (Progress.mk [] .operand 0 0).feed (before.map Token.Placed.token) = .ok q

namespace ComesTo

theorem invariant (h : ComesTo before q) :
    Progress.Invariant 0 (before.map Token.Placed.token) q :=
  (Progress.Invariant.init (Nat.zero_le maxNesting) (Nat.zero_le maxOperators)).feed h.feed_eq

theorem accepts_append_iff (h : ComesTo before q) :
    Accepts (before ++ more) ↔
      ∃ e, (q.feed (Token.beforeEnding more)).bind Progress.complete = .ok e := by
  unfold Accepts
  simp only [read_ofTokens, Token.beforeEnding_append h.ne_ending, feed_append_of_feed h.feed_eq]

theorem take {r : Progress} (h : ComesTo before q) (ht : t.token ≠ .ending)
    (htake : q.take t.token = .ok r) : ComesTo (before ++ [t]) r where
  ne_ending := by
    rw [List.forall_mem_append, List.forall_mem_singleton]
    exact ⟨h.ne_ending, ht⟩
  feed_eq := by
    rw [List.map_append, feed_append_of_feed h.feed_eq, List.map_singleton,
      Progress.feed_cons htake, Progress.feed]

theorem canContinue (h : ComesTo before q) (hq : q.Completes) : CanContinue before := by
  obtain ⟨ts, hts, e, he⟩ := hq
  have hmap : (ts.map Token.unplaced).map Token.Placed.token = ts := by
    rw [List.map_map]
    exact List.map_id ts
  have hplaced : ∀ t ∈ ts.map Token.unplaced, t.token ≠ .ending := by
    intro t ht
    obtain ⟨u, hu, rfl⟩ := List.mem_map.mp ht
    exact hts u hu
  refine ⟨ts.map Token.unplaced ++ [Token.ending.unplaced],
    ⟨before ++ ts.map Token.unplaced, Token.ending.unplaced, ?_, rfl, ?_⟩, ?_⟩
  · rw [List.append_assoc]
  · rw [List.forall_mem_append]
    exact ⟨h.ne_ending, hplaced⟩
  · rw [h.accepts_append_iff, Token.beforeEnding_append hplaced, hmap,
      Token.beforeEnding_cons_ending rfl, List.append_nil]
    exact ⟨e, he⟩

/-- No list is accepted that goes on with a token at fault. -/
theorem not_accepts (h : ComesTo before q) (hfault : q.Faults t.token cause) :
    ¬Accepts (before ++ t :: more) := by
  rw [h.accepts_append_iff]
  rintro ⟨e, he⟩
  unfold Progress.Faults at hfault
  split at hfault
  · rename_i hending
    rw [Token.beforeEnding_cons_ending hending, Progress.feed] at he
    exact absurd (hfault.symm.trans he) (by simp)
  · rename_i hending
    rw [Token.beforeEnding_cons hending, Progress.feed, hfault] at he
    exact absurd he (by simp [Except.bind])

/-- At the end of the input it makes no difference whether the end is in the list. -/
theorem accepts_iff_of_ending (h : ComesTo before q) (ht : t.token = .ending) :
    Accepts before ↔ Accepts (before ++ [t]) := by
  conv_lhs => rw [← List.append_nil before]
  rw [h.accepts_append_iff, h.accepts_append_iff, Token.beforeEnding_cons_ending ht]
  rfl

theorem helps (h : ComesTo before q) (hq : q.Helps cause) : Helps before cause := by
  cases cause with
  | operand =>
    intro text place
    obtain ⟨r, htake, hr⟩ := hq text
    exact (h.take (t := ⟨.number text, place⟩) (by simp) htake).canContinue hr
  | token text =>
    obtain ⟨htext, r, htake, hr⟩ := hq
    refine ⟨htext, fun place => ?_⟩
    exact (h.take (t := ⟨.rightParen, place⟩) (by simp) htake).canContinue hr
  | endOfInput => exact fun place => h.accepts_append_iff.mpr hq
  | singleEquals | shallowerNesting | fewerOperators => trivial

end ComesTo

theorem expected_mismatch (r : Reader) (expected : Expectation) :
    (r.mismatch expected).expected = expected := by
  unfold mismatch
  split <;> rfl

/-- But for the place that it reports, a call comes to what its run comes to. -/
theorem mapError_read (r : Reader) : r.read.1.mapError Mismatch.expected =
    ((Progress.mk [] .operand r.nesting r.operators).run r.rest).result := by
  unfold read
  dsimp only
  cases ((Progress.mk [] .operand r.nesting r.operators).run r.rest).result with
  | error cause => exact congrArg Except.error (expected_mismatch _ cause)
  | ok e => rfl

/-- What a call that fails reports: the expectation of its run, at the token where it stopped. -/
theorem read_eq_error {r : Reader} {e : Mismatch} (h : r.read.1 = .error e) :
    ((Progress.mk [] .operand r.nesting r.operators).run r.rest).result = .error e.expected ∧
      e = r.read.2.mismatch e.expected := by
  unfold read at h ⊢
  dsimp only at h ⊢
  cases hresult : ((Progress.mk [] .operand r.nesting r.operators).run r.rest).result with
  | ok d =>
    rw [hresult] at h
    exact absurd h (by simp [Except.mapError])
  | error cause =>
    rw [hresult] at h
    cases h
    rw [expected_mismatch]
    exact ⟨rfl, rfl⟩

/-- A mismatch that is no limit stands at the first token that is left, behind tokens that the
reader has taken. -/
theorem exists_fault {e : Mismatch} (hended : Token.Ended ts)
    (h : (ofTokens ts).read.1 = .error e) (hlimit : e.expected.isLimit = false) :
    ∃ before t after q, ts = before ++ t :: after ∧ (ofTokens ts).read.2.rest = t :: after ∧
      ComesTo before q ∧ q.Faults t.token e.expected := by
  have hresult : ((Progress.mk [] .operand 0 0).run ts).result = .error e.expected :=
    (read_eq_error h).1
  obtain ⟨before, q, hts, hbefore, hfeed, hfault⟩ := Progress.run_error hresult hlimit
  cases hrest : ((Progress.mk [] .operand 0 0).run ts).rest with
  | nil =>
    -- Not all tokens can be taken, for the last of them is the end.
    obtain ⟨us, last, rfl, hlast, -⟩ := hended
    rw [hrest, List.append_nil] at hts
    exact absurd hlast (hbefore last (by rw [← hts]; simp))
  | cons t after =>
    rw [hrest] at hts hfault
    exact ⟨before, t, after, q, hts, hrest, ⟨hbefore, hfeed⟩, hfault⟩

/-- A mismatch stands at the earliest token that can be at fault, and what was expected there can
stand there. -/
theorem mismatch_earliest {e : Mismatch} (hended : Token.Ended ts)
    (h : (ofTokens ts).read.1 = .error e) (hlimit : e.expected.isLimit = false) :
    ∃ k t, ts[k]? = some t ∧ (ofTokens ts).read.2.rest = ts.drop k ∧
      CanContinue (ts.take k) ∧
      (∀ more, ¬Accepts (ts.take (k + 1) ++ more)) ∧
      (t.token = .ending → ¬Accepts (ts.take k)) ∧
      (e.found = t.token.text ∧ e.place = t.place) ∧
      Helps (ts.take k) e.expected := by
  obtain ⟨before, t, after, q, hts, hrest, hq, hfault⟩ := exists_fault hended h hlimit
  have htake : ts.take before.length = before := by rw [hts, List.take_left]
  have hnext : ts.take (before.length + 1) = before ++ [t] := by
    rw [hts, List.take_length_add_append]
    rfl
  refine ⟨before.length, t, ?_, ?_, ?_, ?_, ?_, ?_, ?_⟩
  · rw [hts, List.getElem?_append_right (Nat.le_refl _), Nat.sub_self]
    rfl
  · rw [hrest, hts, List.drop_left]
  · rw [htake]
    exact hq.canContinue hq.invariant.completes
  · intro more
    rw [hnext, List.append_assoc]
    exact hq.not_accepts hfault
  · intro hending
    rw [htake, hq.accepts_iff_of_ending hending]
    exact hq.not_accepts hfault
  · rw [(read_eq_error h).2, mismatch, hrest]
    exact ⟨rfl, rfl⟩
  · rw [htake]
    exact hq.helps (hq.invariant.helps (hfault.refuses hlimit))

/-- Behind a product in a call, where the comma is missing; the call stands behind a sign. -/
theorem mismatch_earliest_of_missing_comma :
    let ts : List Token.Placed :=
      [⟨.op .sub, ⟨1, 1⟩⟩, ⟨.name "F", ⟨1, 2⟩⟩, ⟨.leftParen, ⟨1, 3⟩⟩, ⟨.number "2", ⟨1, 4⟩⟩,
        ⟨.op .mul, ⟨1, 5⟩⟩, ⟨.name "A", ⟨1, 6⟩⟩, ⟨.name "B", ⟨2, 1⟩⟩, ⟨.ending, ⟨2, 2⟩⟩]
    let e : Mismatch := ⟨.token ")", "B", ⟨2, 1⟩⟩
    Token.Ended ts ∧ (ofTokens ts).read.1 = .error e ∧ e.expected.isLimit = false ∧
      ∃ k t, ts[k]? = some t ∧ (ofTokens ts).read.2.rest = ts.drop k ∧
        CanContinue (ts.take k) ∧
        (∀ more, ¬Accepts (ts.take (k + 1) ++ more)) ∧
        (t.token = .ending → ¬Accepts (ts.take k)) ∧
        (e.found = t.token.text ∧ e.place = t.place) ∧
        Helps (ts.take k) e.expected := by
  intro ts e
  have hended : Token.Ended ts := ⟨ts.dropLast, ⟨.ending, ⟨2, 2⟩⟩, rfl, rfl, by decide⟩
  have h : (ofTokens ts).read.1 = .error e := by rfl
  exact ⟨hended, h, rfl, mismatch_earliest hended h rfl⟩

end Reader

end FormulaTree
