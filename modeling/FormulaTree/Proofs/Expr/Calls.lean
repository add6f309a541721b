import FormulaTree.Proofs.Expr.Descent.Reader

/-!
# Any number of calls

A failed call leaves constructs open and stops within the list, and the next call starts from there.
The counts stay in order all the same: what is left open is never closed by a later call, so it is
the least nesting of that call, and `Progress.Invariant` keeps the rest.
-/

namespace FormulaTree

namespace Progress

variable {p q : Progress} {ts us : List Token.Placed} {t : Token}

/-! ## What a run leaves alone -/

theorem outer_applySigns (p : Progress) (t : Token) : (p.applySigns t).outer = p.outer := by
  unfold applySigns
  split <;> rfl

theorem Move.outer_eq (h : Move p t q) : q.outer = p.outer := by
  cases h <;> rfl

/-- What was open before a call stays open. -/
theorem outer_of_feed {ts : List Token} (h : p.feed ts = .ok q) : q.outer = p.outer := by
  induction ts generalizing p with
  | nil => rw [Except.ok.inj h]
  | cons t ts ih =>
    obtain ⟨r, htake, hfeed⟩ := exists_of_feed_cons h
    rw [ih hfeed, (move_of_step htake).outer_eq, outer_applySigns]

/-- Where a run stops: the signs are applied there, and at most a token that exceeds a limit is
taken. -/
theorem exists_passes (p : Progress) (ts : List Token.Placed) :
    ∃ q us taken, Passes p ts q us ∧ (p.run ts).progress = q.applySigns (Token.ahead us) ∧
      us = taken ++ (p.run ts).rest ∧ ∀ t ∈ taken, t.token ≠ .ending := by
  induction ts generalizing p with
  | nil => exact ⟨p, [], [], .refl p [], rfl, rfl, by simp⟩
  | cons t ts ih =>
    unfold run
    by_cases ht : t.token = .ending
    · simp only [if_pos ht]
      exact ⟨p, t :: ts, [], .refl p _, rfl, rfl, by simp⟩
    · simp only [if_neg ht]
      cases hstep : (p.applySigns t.token).step t.token with
      | ok r =>
        obtain ⟨q, us, taken, hpasses, hstop⟩ := ih r
        exact ⟨q, us, taken, .trans (.take ht hstep) hpasses, hstop⟩
      | error cause =>
        by_cases hcause : cause.isLimit = true
        · simp only [if_pos hcause]
          exact ⟨p, t :: ts, [t], .refl p _, rfl, rfl, by simpa using ht⟩
        · simp only [if_neg hcause]
          exact ⟨p, t :: ts, [], .refl p _, rfl, rfl, by simp⟩

/-- A run that reads a formula reads all that stands in front of the end. -/
theorem reads_of_run_ok {nesting operators : Nat} {e : Expr}
    (h : ((Progress.mk [] .operand nesting operators).run ts).result = .ok e) :
    ∃ q us, Passes ⟨[], .operand, nesting, operators⟩ ts q us ∧
      Reads ⟨[], .operand, nesting, operators⟩ 1 e q ∧ Token.ahead us = .ending := by
  obtain ⟨a, s, -, hmeets⟩ := Descent.agrees ts (by decide : 1 ≤ 5) (6 * ts.length + 6)
    ⟨[], .operand, nesting, operators⟩ (Nat.le_refl _) (.inl rfl) nofun (Nat.le_refl 1)
  cases hmeets with
  | refused hrun =>
    rw [hrun] at h
    exact absurd h (by simp)
  | @read d q us hpasses hlt hreads hends =>
    rw [hpasses.run_eq] at h
    by_cases hending : Token.ahead us = .ending
    · rw [run_of_ending hending, hreads.complete rfl] at h
      rw [← Except.ok.inj h]
      exact ⟨q, us, hpasses, hreads, hending⟩
    · rw [run_of_faults (hreads.faults hends hending) rfl] at h
      exact absurd h (by simp)

end Progress

namespace Reader

variable {ts us : List Token.Placed} {r : Reader} {q : Progress}

/-! ## One call -/

/-- The formula of which a call has read nothing. -/
def begun (r : Reader) : Progress :=
  ⟨[], .operand, r.nesting, r.operators⟩

/-- Whether counts are in order within a call of `r`. -/
structure Bounds (r : Reader) (nesting operators : Nat) : Prop where
  le_nesting : r.nesting ≤ nesting
  nesting_le : nesting ≤ maxNesting
  le_operators : r.operators ≤ operators
  operators_le : operators ≤ maxOperators

/-- Whether `r` reads from the list `ts`, within the limits and not behind its end. -/
structure Within (ts : List Token.Placed) (r : Reader) : Prop where
  nesting_le : r.nesting ≤ maxNesting
  operators_le : r.operators ≤ maxOperators
  taken : ∃ before, ts = before ++ r.rest ∧ ∀ t ∈ before, t.token ≠ .ending

theorem Bounds.of_invariant {held : List Token} (h : Progress.Invariant r.operators held q)
    (houter : q.outer = r.nesting) : r.Bounds q.nesting q.operators := by
  refine ⟨?_, h.nesting_le, h.start_le, h.operators_le⟩
  rw [← houter]
  exact Nat.le_add_right _ _

theorem Within.invariant (h : Within ts r) (hpasses : Progress.Passes r.begun r.rest q us) :
    ∃ before, r.rest = before ++ us ∧ (∀ t ∈ before, t.token ≠ .ending) ∧
      Progress.Invariant r.operators (before.map Token.Placed.token) q ∧ q.outer = r.nesting := by
  obtain ⟨before, hrest, hbefore, hfeed⟩ := hpasses
  have hinit := Progress.Invariant.init h.nesting_le h.operators_le
  exact ⟨before, hrest, hbefore, hinit.feed hfeed, Progress.outer_of_feed hfeed⟩

/-- The counts stay in order all through a call. -/
theorem Within.bounds (h : Within ts r) (hpasses : Progress.Passes r.begun r.rest q us) :
    r.Bounds q.nesting q.operators := by
  obtain ⟨before, -, -, hinvariant, houter⟩ := h.invariant hpasses
  exact .of_invariant hinvariant houter

/-- A call moves on, not past the end, and leaves the counts in order. -/
theorem Within.exists_read (h : Within ts r) : r.Bounds r.read.2.nesting r.read.2.operators ∧
    ∃ before, r.rest = before ++ r.read.2.rest ∧ ∀ t ∈ before, t.token ≠ .ending := by
  obtain ⟨q, us, taken, hpasses, hprogress, hus, htaken⟩ := r.begun.exists_passes r.rest
  obtain ⟨before, hrest, hbefore, hinvariant, houter⟩ := h.invariant hpasses
  constructor
  · have hnesting : r.read.2.nesting = (q.applySigns (Token.ahead us)).nesting :=
      congrArg Progress.nesting hprogress
    have hoperators : r.read.2.operators = (q.applySigns (Token.ahead us)).operators :=
      congrArg Progress.operators hprogress
    rw [hnesting, hoperators]
    exact .of_invariant (hinvariant.applySigns _).1 ((q.outer_applySigns _).trans houter)
  · refine ⟨before ++ taken, ?_, List.forall_mem_append.mpr ⟨hbefore, htaken⟩⟩
    rw [hrest, hus, List.append_assoc]
    rfl

theorem Within.read (h : Within ts r) : Within ts r.read.2 := by
  obtain ⟨hbounds, more, hrest, hmore⟩ := h.exists_read
  obtain ⟨before, hts, hbefore⟩ := h.taken
  refine ⟨hbounds.nesting_le, hbounds.operators_le, before ++ more, ?_, ?_⟩
  · rw [List.append_assoc, ← hrest, hts]
  · exact List.forall_mem_append.mpr ⟨hbefore, hmore⟩

theorem within_after (ts : List Token.Placed) (calls : Nat) :
    Within ts ((ofTokens ts).after calls) := by
  induction calls with
  | zero => exact ⟨Nat.zero_le _, Nat.zero_le _, [], rfl, by simp⟩
  | succ calls ih =>
    rw [after_succ]
    exact ih.read

/-! ## Places in the list -/

/-- How many tokens of the list a reader of it has passed. -/
def position (ts : List Token.Placed) (r : Reader) : Nat :=
  ts.length - r.rest.length

theorem position_of_append {before : List Token.Placed} (h : ts = before ++ r.rest) :
    r.position ts = before.length := by
  rw [position, h, List.length_append, Nat.add_sub_cancel]

theorem Within.rest_eq (h : Within ts r) : r.rest = ts.drop (r.position ts) := by
  obtain ⟨before, hts, -⟩ := h.taken
  rw [position_of_append hts, hts, List.drop_left]

theorem Within.position_le (h : Within ts r) :
    r.position ts ≤ (Token.beforeEnding ts).length := by
  obtain ⟨before, hts, hbefore⟩ := h.taken
  rw [position_of_append hts, hts, Token.beforeEnding_append hbefore, List.length_append,
    List.length_map]
  exact Nat.le_add_right _ _

theorem Within.position_eq_add (h : Within ts r) {r' : Reader} {more : List Token.Placed}
    (hrest : r.rest = more ++ r'.rest) : r'.position ts = r.position ts + more.length := by
  obtain ⟨before, hts, -⟩ := h.taken
  have hts' : ts = (before ++ more) ++ r'.rest := by rw [List.append_assoc, ← hrest, hts]
  rw [position_of_append hts', position_of_append hts, List.length_append]

/-! ## A call that succeeds -/

theorem run_of_read_eq_ok {e : Expr} (h : r.read.1 = .ok e) :
    (r.begun.run r.rest).result = .ok e := by
  have hresult := mapError_read r
  rw [h] at hresult
  exact hresult.symm

/-- What a call counts that reads a formula. -/
theorem Within.read_ok (h : Within ts r) {e : Expr} (he : r.read.1 = .ok e) :
    (∃ before, r.rest = before ++ r.read.2.rest ∧ before.length = e.tokens.length) ∧
      r.read.2.nesting = r.nesting ∧ r.read.2.operators = r.operators + e.operatorCount ∧
      Token.ahead r.read.2.rest = .ending := by
  obtain ⟨q, us, hpasses, hreads, hending⟩ := Progress.reads_of_run_ok (run_of_read_eq_ok he)
  obtain ⟨before, hrest, -, hinvariant, -⟩ := h.invariant hpasses
  have hrun : r.begun.run r.rest = ⟨q.complete, q.applySigns .ending, us⟩ :=
    hpasses.run_eq.trans (Progress.run_of_ending hending)
  have hread : r.read.2 = { r with
      rest := us, nesting := (q.applySigns .ending).nesting,
      operators := (q.applySigns .ending).operators } := by
    unfold Reader.read
    rw [show Progress.mk [] .operand r.nesting r.operators = r.begun from rfl, hrun]
  obtain ⟨-, htokens, -⟩ := hinvariant.complete (hreads.complete rfl)
  rw [hread]
  refine ⟨⟨before, hrest, ?_⟩, ?_, ?_, hending⟩
  · rw [htokens, List.length_map]
  · exact hreads.nesting_applySigns (Nat.le_refl 1) (by decide)
  · exact hreads.operators_applySigns.trans hreads.operators_eq

/-- In front of the end an operand is missing, and the reader stays there. -/
theorem read_of_ending (h : Token.ahead r.rest = .ending) :
    r.read = (.error (r.mismatch .operand), r) := by
  unfold Reader.read
  rw [Progress.run_of_ending h]
  rfl

theorem after_of_ending (h : Token.ahead r.rest = .ending) (calls : Nat) : r.after calls = r :=
  Function.iterate_fixed (congrArg Prod.snd (read_of_ending h)) calls

/-! ## Any number of calls -/

/-- Over any number of calls, whatever they come to, what a reader counts stays in order. Each call
is a descent that comes to an end, lowers no count below zero and passes no end of the input. All
through it the nesting and the operators are at least what they were at its start, and within the
limits; and a reader never goes back, nor past the first end. A call that succeeds has closed all
that it opened, has counted the operators of its result and has passed the tokens of its result;
and behind it every call misses an operand and changes nothing. -/
theorem calls_keep_account (ts : List Token.Placed) (calls : Nat) :
    let r := (ofTokens ts).after calls
    let r' := r.read.2
    (∀ depth, 6 * r.rest.length + 6 ≤ depth →
      Descent.Gives (Descent.formula depth) r.cursor
        (r.read.1.mapError fun m => .refused m.expected) r'.cursor) ∧
    (∀ q us, Progress.Passes r.begun r.rest q us → r.Bounds q.nesting q.operators) ∧
    r.Bounds r'.nesting r'.operators ∧
    (r.rest = ts.drop (r.position ts) ∧ r.position ts ≤ r'.position ts ∧
      r'.position ts ≤ (Token.beforeEnding ts).length) ∧
    ∀ e, r.read.1 = .ok e →
      r'.nesting = r.nesting ∧ r'.operators = r.operators + e.operatorCount ∧
      r'.position ts = r.position ts + e.tokens.length ∧
      ∀ more, (r'.after more).read = (.error (r'.mismatch .operand), r') := by
  intro r r'
  have hwithin : Within ts r := within_after ts calls
  obtain ⟨hbounds, more, hrest, -⟩ := hwithin.exists_read
  refine ⟨fun depth => gives_formula r, fun q us => hwithin.bounds, hbounds,
    ⟨hwithin.rest_eq, ?_, ?_⟩, ?_⟩
  · rw [hwithin.position_eq_add hrest]
    exact Nat.le_add_right _ _
  · exact hwithin.read.position_le
  · intro e he
    obtain ⟨⟨before, hbefore, hlength⟩, hnesting, hoperators, hending⟩ := hwithin.read_ok he
    refine ⟨hnesting, hoperators, ?_, fun calls => ?_⟩
    · rw [hwithin.position_eq_add hbefore, hlength]
    · rw [after_of_ending hending, read_of_ending hending]

/-- The parenthesis that the first call leaves open stays open, and the second call reads on within
it, up to the end. -/
example :
    let r := ofTokens ([.leftParen, .number "1", .name "A", .op .mul, .number "2", .ending].map
      Token.unplaced)
    (r.after 1).nesting = 1 ∧
      (r.after 1).read.1 = .ok (.binary (.name "A") .mul (.number "2")) ∧
      ((r.after 2).nesting, (r.after 2).operators) = (1, 1) :=
  ⟨rfl, rfl, rfl⟩

end Reader

end FormulaTree
