import FormulaTree.Proofs.Expr.Stop

/-!
# The sign `==`

No formula contains `==`, and it is refused by an expectation of its own wherever it stands: where an
operand has to start, behind an operand, and at every depth. A reader therefore never passes it, over
any number of calls, and what a call says at it is known unless a limit is exceeded there.
-/

namespace FormulaTree

namespace Progress

variable {p q : Progress} {t : Token} {cause : Expectation}

/-! ## One token -/

theorem step_doubleEquals (p : Progress) : p.step .doubleEquals = .error .singleEquals := by
  unfold step
  cases p.awaited with
  | operand => rfl
  | argument => rfl
  | continuation e => rfl

theorem take_doubleEquals (p : Progress) : p.take .doubleEquals = .error .singleEquals :=
  step_doubleEquals (p.applySigns .doubleEquals)

theorem ne_singleEquals_of_enter {f : Frame} {awaited : Awaited}
    (h : p.enter f awaited = .error cause) : cause ≠ .singleEquals := by
  unfold enter at h
  split at h
  · exact absurd h (by simp)
  · cases h
    decide

theorem eq_doubleEquals_of_start (h : p.start t = .error .singleEquals) : t = .doubleEquals := by
  cases t with
  | doubleEquals => rfl
  | leftParen => exact absurd rfl (ne_singleEquals_of_enter h)
  | op o =>
    simp only [start] at h
    split at h
    · exact absurd rfl (ne_singleEquals_of_enter h)
    · exact absurd h (by simp)
  | _ => exact absurd h (by simp [start])

theorem eq_doubleEquals_of_extend {e : Expr} (h : p.extend e t = .error .singleEquals) :
    t = .doubleEquals := by
  cases t with
  | doubleEquals => rfl
  | op o =>
    simp only [extend, operate] at h
    split at h <;> exact absurd h (by simp)
  -- What every other token comes to depends on what is open, but it is never this expectation.
  | _ =>
    simp only [extend] at h
    split at h <;> exact absurd h (by simp)

theorem eq_doubleEquals_of_step (h : p.step t = .error .singleEquals) : t = .doubleEquals := by
  unfold step at h
  split at h
  · exact eq_doubleEquals_of_start h
  · split at h
    · exact absurd h (by simp)
    · exact eq_doubleEquals_of_start h
  · split at h
    · exact absurd rfl (ne_singleEquals_of_enter h)
    · exact eq_doubleEquals_of_extend h

/-- At the token that is at fault, or at the end, `=` is expected if and only if the token is
`==`. -/
theorem Faults.singleEquals_iff (h : p.Faults t cause) :
    cause = .singleEquals ↔ t = .doubleEquals := by
  unfold Faults at h
  constructor
  · rintro rfl
    split at h
    · exact absurd rfl (ne_singleEquals_of_complete h)
    · exact eq_doubleEquals_of_step h
  · rintro rfl
    rw [if_neg (by decide), take_doubleEquals] at h
    exact (Except.error.inj h).symm

theorem ne_doubleEquals_of_take (h : p.take t = .ok q) : t ≠ .doubleEquals := by
  rintro rfl
  rw [take_doubleEquals] at h
  exact absurd h (by simp)

theorem ne_doubleEquals_of_feed {ts : List Token} (h : p.feed ts = .ok q) :
    ∀ t ∈ ts, t ≠ .doubleEquals := by
  induction ts generalizing p with
  | nil => simp
  | cons t ts ih =>
    obtain ⟨r, htake, hfeed⟩ := exists_of_feed_cons h
    exact List.forall_mem_cons.mpr ⟨ne_doubleEquals_of_take htake, ih hfeed⟩

/-! ## A run -/

/-- A run never passes `==`, whatever it comes to. -/
theorem run_passes (p : Progress) (ts : List Token.Placed) :
    ∃ taken, ts = taken ++ (p.run ts).rest ∧ ∀ t ∈ taken, t.token ≠ .doubleEquals := by
  have hfed {before : List Token.Placed} {q : Progress}
      (hfeed : p.feed (before.map Token.Placed.token) = .ok q) :
      ∀ t ∈ before, t.token ≠ .doubleEquals :=
    fun t ht => ne_doubleEquals_of_feed hfeed t.token (List.mem_map_of_mem ht)
  cases hresult : (p.run ts).result with
  | ok e =>
    obtain ⟨before, q, hts, -, hfeed, -⟩ := run_ok hresult
    exact ⟨before, hts, hfed hfeed⟩
  | error cause =>
    by_cases hlimit : cause.isLimit = true
    · obtain ⟨before, t, q, hts, -, -, hfeed, htake⟩ := run_error_of_isLimit hresult hlimit
      refine ⟨before ++ [t], by rw [List.append_assoc]; exact hts, ?_⟩
      refine List.forall_mem_append.mpr ⟨hfed hfeed, List.forall_mem_singleton.mpr ?_⟩
      -- The token that exceeds the limit is taken as well, and `==` exceeds none.
      intro hequals
      rw [hequals, take_doubleEquals] at htake
      rw [← Except.error.inj htake] at hlimit
      exact absurd hlimit (by decide)
    · obtain ⟨before, q, hts, -, hfeed, -⟩ := run_error hresult (Bool.not_eq_true _ ▸ hlimit)
      exact ⟨before, hts, hfed hfeed⟩

/-- Where a run stops in front of `==`, it is refused. -/
theorem run_stops {ts : List Token.Placed} {t : Token.Placed}
    (ht : (p.run ts).rest.head? = some t) (hequals : t.token = .doubleEquals) :
    ∃ cause, (p.run ts).result = .error cause ∧
      (cause = .singleEquals ∨ cause.isLimit = true) := by
  cases hresult : (p.run ts).result with
  | ok e =>
    obtain ⟨-, -, -, -, -, -, hending⟩ := run_ok hresult
    rw [hending t ht] at hequals
    exact absurd hequals (by decide)
  | error cause =>
    refine ⟨cause, rfl, ?_⟩
    by_cases hlimit : cause.isLimit = true
    · exact .inr hlimit
    · obtain ⟨-, q, -, -, -, hfault⟩ := run_error hresult (Bool.not_eq_true _ ▸ hlimit)
      rw [ht] at hfault
      exact .inl (hfault.singleEquals_iff.mpr hequals)

/-- Tokens that can be taken are taken. -/
theorem run_append {before : List Token.Placed} (hbefore : ∀ u ∈ before, u.token ≠ .ending)
    (hfeed : p.feed (before.map Token.Placed.token) = .ok q) (ts : List Token.Placed) :
    p.run (before ++ ts) = q.run ts := by
  induction before generalizing p with
  | nil =>
    obtain rfl := Except.ok.inj hfeed
    rfl
  | cons u before ih =>
    rw [List.forall_mem_cons] at hbefore
    obtain ⟨r, htake, hrest⟩ := exists_of_feed_cons hfeed
    have hstep : (p.applySigns u.token).step u.token = .ok r := htake
    rw [List.cons_append, run]
    simp only [if_neg hbefore.1, hstep]
    exact ih hbefore.2 hrest

theorem run_cons_doubleEquals (p : Progress) {t : Token.Placed} (ht : t.token = .doubleEquals)
    (more : List Token.Placed) :
    (p.run (t :: more)).result = .error .singleEquals ∧ (p.run (t :: more)).rest = t :: more := by
  have hstep : (p.applySigns t.token).step t.token = .error .singleEquals := by
    rw [ht]
    exact step_doubleEquals _
  have hending : t.token ≠ .ending := by
    rw [ht]
    decide
  unfold run
  simp only [if_neg hending, hstep]
  exact ⟨trivial, rfl⟩

/-- A run expects `=` only where it stops in front of `==`. -/
theorem run_singleEquals {ts : List Token.Placed}
    (h : (p.run ts).result = .error .singleEquals) :
    ∃ t, (p.run ts).rest.head? = some t ∧ t.token = .doubleEquals := by
  obtain ⟨-, q, -, -, -, hfault⟩ := run_error h rfl
  have hequals := hfault.singleEquals_iff.mp rfl
  cases hrest : (p.run ts).rest.head? with
  | none =>
    rw [hrest] at hequals
    exact absurd hequals (by simp)
  | some t =>
    rw [hrest] at hequals
    exact ⟨t, rfl, hequals⟩

end Progress

namespace Reader

variable {ts before : List Token.Placed} {t : Token.Placed} {cause : Expectation}

theorem read_eq_mismatch {r : Reader}
    (h : ((Progress.mk [] .operand r.nesting r.operators).run r.rest).result = .error cause) :
    r.read.1 = .error (r.read.2.mismatch cause) := by
  unfold read
  dsimp only
  rw [h]
  rfl

theorem mismatch_of_head {r : Reader} (h : r.rest.head? = some t) (cause : Expectation) :
    r.mismatch cause = ⟨cause, t.token.text, t.place⟩ := by
  rw [mismatch, h]
  rfl

/-- A reader comes to the end of every list that can go on. -/
theorem CanContinue.exists_comesTo (h : CanContinue before)
    (hbefore : ∀ u ∈ before, u.token ≠ .ending) : ∃ q, ComesTo before q := by
  obtain ⟨more, -, e, he⟩ := h
  rw [read_ofTokens, Token.beforeEnding_append hbefore, Progress.feed_append] at he
  cases hfeed : (Progress.mk [] .operand 0 0).feed (before.map Token.Placed.token) with
  | error cause =>
    rw [hfeed] at he
    exact absurd he (by simp [Except.bind])
  | ok q => exact ⟨q, hbefore, hfeed⟩

theorem ComesTo.read_doubleEquals {q : Progress} (h : ComesTo before q)
    (ht : t.token = .doubleEquals) (more : List Token.Placed) :
    (ofTokens (before ++ t :: more)).read.1 = .error ⟨.singleEquals, "==", t.place⟩ := by
  have hrun := Progress.run_append h.ne_ending h.feed_eq (t :: more)
  obtain ⟨hresult, hrest⟩ := q.run_cons_doubleEquals ht more
  rw [← hrun] at hresult hrest
  have hhead : (ofTokens (before ++ t :: more)).read.2.rest.head? = some t :=
    congrArg List.head? hrest
  rw [read_eq_mismatch hresult, mismatch_of_head hhead, ht]
  rfl

/-! ## Any number of calls -/

/-- The reader after some calls, whatever they came to. -/
def after (r : Reader) (calls : Nat) : Reader :=
  (fun r => r.read.2)^[calls] r

theorem after_succ (r : Reader) (calls : Nat) : r.after (calls + 1) = (r.after calls).read.2 :=
  Function.iterate_succ_apply' _ calls r

/-- Over any number of calls no reader passes `==`. -/
theorem rest_after (ts : List Token.Placed) (calls : Nat) :
    ∃ taken, ts = taken ++ ((ofTokens ts).after calls).rest ∧
      ∀ t ∈ taken, t.token ≠ .doubleEquals := by
  induction calls with
  | zero => exact ⟨[], rfl, by simp⟩
  | succ calls ih =>
    obtain ⟨taken, hts, htaken⟩ := ih
    rw [after_succ]
    generalize (ofTokens ts).after calls = r at hts ⊢
    obtain ⟨more, hrest, hmore⟩ :=
      Progress.run_passes ⟨[], .operand, r.nesting, r.operators⟩ r.rest
    refine ⟨taken ++ more, ?_, List.forall_mem_append.mpr ⟨htaken, hmore⟩⟩
    rw [List.append_assoc, hts]
    exact congrArg (taken ++ ·) hrest

/-- `==` is never part of a formula, and it is always refused by the same expectation, by which
nothing else is refused. No call of a reader takes it; a call that stops in front of it expects `=`
unless a limit is exceeded; and only there is `=` expected. Where a formula could still go on, the
first call does stop at it. -/
theorem doubleEquals_refused (ts : List Token.Placed) (calls : Nat) :
    let r := (ofTokens ts).after calls
    (∃ taken, ts = taken ++ r.read.2.rest ∧ ∀ t ∈ taken, t.token ≠ .doubleEquals) ∧
    (∀ t, r.read.2.rest.head? = some t → t.token = .doubleEquals →
      ∃ m, r.read.1 = .error m ∧ (m.expected = .singleEquals ∨ m.expected.isLimit = true) ∧
        m.found = "==" ∧ m.place = t.place) ∧
    (∀ m, r.read.1 = .error m → m.expected = .singleEquals →
      ∃ t, r.read.2.rest.head? = some t ∧ t.token = .doubleEquals ∧
        m.found = "==" ∧ m.place = t.place) ∧
    ∀ before t more, ts = before ++ t :: more → t.token = .doubleEquals →
      (∀ u ∈ before, u.token ≠ .ending) → CanContinue before →
        (ofTokens ts).read.1 = .error ⟨.singleEquals, "==", t.place⟩ := by
  intro r
  refine ⟨?_, ?_, ?_, ?_⟩
  · have hrest := rest_after ts (calls + 1)
    rwa [after_succ] at hrest
  · intro t ht hequals
    obtain ⟨cause, hresult, hcause⟩ := Progress.run_stops ht hequals
    rw [read_eq_mismatch hresult, mismatch_of_head ht, hequals]
    exact ⟨_, rfl, hcause, rfl, rfl⟩
  · intro m hm hexpected
    obtain ⟨hresult, hmismatch⟩ := read_eq_error hm
    rw [hexpected] at hresult
    obtain ⟨t, ht, hequals⟩ := Progress.run_singleEquals hresult
    rw [mismatch_of_head ht, hequals] at hmismatch
    rw [hmismatch]
    exact ⟨t, ht, hequals, rfl, rfl⟩
  · rintro before t more rfl hequals hbefore hcontinue
    obtain ⟨q, hq⟩ := hcontinue.exists_comesTo hbefore
    exact hq.read_doubleEquals hequals more

/-- In an argument of a call behind a sign, where an operand has to start. -/
example : (ofTokens ([.op .sub, .name "F", .leftParen, .number "1", .comma, .doubleEquals,
    .number "2"].map Token.unplaced)).read.1 = .error ⟨.singleEquals, "==", .start⟩ := by
  rfl

end Reader

end FormulaTree
