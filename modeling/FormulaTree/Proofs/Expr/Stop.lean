import FormulaTree.Proofs.Expr.Mismatch

/-!
# The token that is reported

A token that exceeds a limit is taken before the limit is looked at, so the reader stops at the
token behind it; at every other mismatch it stops at the token at fault. Either way it is the token
where the reader stops that is reported, and the end of the input is never passed.
-/

namespace FormulaTree

namespace Progress

variable {p : Progress} {cause : Expectation}

/-- At the end of the input an operand or a closing parenthesis is missing, if anything is. -/
theorem complete_error (h : p.complete = .error cause) :
    cause = .operand ∨ cause = .token ")" := by
  unfold Progress.complete finish at h
  split at h
  · exact .inl (Except.error.inj h).symm
  · exact .inl (Except.error.inj h).symm
  · split at h
    · exact absurd h (by simp)
    · exact .inr (Except.error.inj h).symm

/-- No limit is exceeded at the end of the input. -/
theorem isLimit_of_complete (h : p.complete = .error cause) : cause.isLimit = false := by
  rcases complete_error h with rfl | rfl <;> rfl

/-- At the end of the input a formula is never said to go on. -/
theorem ne_endOfInput_of_complete (h : p.complete = .error cause) : cause ≠ .endOfInput := by
  rcases complete_error h with rfl | rfl <;> simp

theorem ne_singleEquals_of_complete (h : p.complete = .error cause) : cause ≠ .singleEquals := by
  rcases complete_error h with rfl | rfl <;> simp

/-- A run that reads a formula has taken the tokens up to the end. -/
theorem run_ok {ts : List Token.Placed} {e : Expr} (h : (p.run ts).result = .ok e) :
    ∃ before q, ts = before ++ (p.run ts).rest ∧ (∀ t ∈ before, t.token ≠ .ending) ∧
      p.feed (before.map Token.Placed.token) = .ok q ∧ q.complete = .ok e ∧
      ∀ t, (p.run ts).rest.head? = some t → t.token = .ending := by
  induction ts generalizing p with
  | nil => exact ⟨[], p, rfl, by simp, rfl, h, by simp [run]⟩
  | cons t ts ih =>
    unfold run at h ⊢
    by_cases ht : t.token = .ending
    · simp only [ht, ↓reduceIte] at h ⊢
      refine ⟨[], p, rfl, by simp, rfl, h, ?_⟩
      intro u hu
      rw [← Option.some.inj hu]
      exact ht
    · simp only [if_neg ht] at h ⊢
      cases hstep : (p.applySigns t.token).step t.token with
      | error c =>
        rw [hstep] at h
        exact absurd h (by simp)
      | ok r =>
        rw [hstep] at h
        obtain ⟨before, q, hts, hbefore, hfeed, hcomplete, hending⟩ := ih h
        refine ⟨t :: before, q, ?_, List.forall_mem_cons.mpr ⟨ht, hbefore⟩, ?_, hcomplete, hending⟩
        · rw [List.cons_append, ← hts]
        · rw [List.map_cons, feed_cons (q := r) hstep, hfeed]

/-- A run that exceeds a limit has taken the token at fault. -/
theorem run_error_of_isLimit {ts : List Token.Placed} (h : (p.run ts).result = .error cause)
    (hcause : cause.isLimit = true) :
    ∃ before t q, ts = before ++ t :: (p.run ts).rest ∧ (∀ u ∈ before, u.token ≠ .ending) ∧
      t.token ≠ .ending ∧ p.feed (before.map Token.Placed.token) = .ok q ∧
      q.take t.token = .error cause := by
  have hending {q : Progress} (hq : q.complete = .error cause) : False := by
    have hnone := isLimit_of_complete hq
    rw [hcause] at hnone
    exact absurd hnone (by decide)
  induction ts generalizing p with
  | nil => exact (hending h).elim
  | cons t ts ih =>
    unfold run at h ⊢
    by_cases ht : t.token = .ending
    · simp only [ht, ↓reduceIte] at h
      exact (hending h).elim
    · simp only [if_neg ht] at h ⊢
      cases hstep : (p.applySigns t.token).step t.token with
      | error c =>
        rw [hstep] at h
        obtain rfl : c = cause := Except.error.inj h
        simp only [hcause, ↓reduceIte]
        exact ⟨[], t, p, rfl, by simp, ht, rfl, hstep⟩
      | ok r =>
        rw [hstep] at h
        obtain ⟨before, u, q, hts, hbefore, hu, hfeed, htake⟩ := ih h
        refine ⟨t :: before, u, q, ?_, List.forall_mem_cons.mpr ⟨ht, hbefore⟩, hu, ?_, htake⟩
        · rw [List.cons_append, ← hts]
        · rw [List.map_cons, feed_cons (q := r) hstep, hfeed]

end Progress

namespace Reader

variable {ts : List Token.Placed} {e : Mismatch}

/-- Where a limit is exceeded, the reader stops behind the token at fault. -/
theorem exists_excess (hended : Token.Ended ts) (h : (ofTokens ts).read.1 = .error e)
    (hlimit : e.expected.isLimit = true) :
    ∃ before t next after q, ts = before ++ t :: next :: after ∧
      (ofTokens ts).read.2.rest = next :: after ∧ ComesTo before q ∧ t.token ≠ .ending ∧
      q.take t.token = .error e.expected := by
  have hresult : ((Progress.mk [] .operand 0 0).run ts).result = .error e.expected :=
    (read_eq_error h).1
  obtain ⟨before, t, q, hts, hbefore, ht, hfeed, htake⟩ :=
    Progress.run_error_of_isLimit hresult hlimit
  cases hrest : ((Progress.mk [] .operand 0 0).run ts).rest with
  | nil =>
    -- The token at fault is not the end of the input, so something stands behind it.
    obtain ⟨us, last, rfl, hlast, -⟩ := hended
    rw [hrest] at hts
    obtain ⟨-, hsame⟩ := List.append_inj' hts rfl
    rw [List.cons.inj hsame |>.1] at hlast
    exact absurd hlast ht
  | cons next after =>
    rw [hrest] at hts
    exact ⟨before, t, next, after, q, hts, hrest, ⟨hbefore, hfeed⟩, ht, htake⟩

theorem found_and_place_of_rest {r : Reader} {t : Token.Placed} {after : List Token.Placed}
    (h : r.read.1 = .error e) (hrest : r.read.2.rest = t :: after) :
    e.found = t.token.text ∧ e.place = t.place := by
  rw [(read_eq_error h).2, mismatch, hrest]
  exact ⟨rfl, rfl⟩

/-- A reader stops at a token of the list, and reports that one. It says that the formula was
complete only where something follows. -/
theorem exists_stop (hended : Token.Ended ts) (h : (ofTokens ts).read.1 = .error e) :
    ∃ before t after, ts = before ++ t :: after ∧ (ofTokens ts).read.2.rest = t :: after ∧
      (e.found = t.token.text ∧ e.place = t.place) ∧
      (e.expected = .endOfInput → t.token ≠ .ending) := by
  by_cases hlimit : e.expected.isLimit = true
  · obtain ⟨before, t, next, after, -, hts, hrest, -⟩ := exists_excess hended h hlimit
    refine ⟨before ++ [t], next, after, ?_, hrest, found_and_place_of_rest h hrest, ?_⟩
    · rw [hts, List.append_assoc]
      rfl
    · intro hexpected
      rw [hexpected] at hlimit
      exact absurd hlimit (by decide)
  · obtain ⟨before, t, after, q, hts, hrest, -, hfault⟩ :=
      exists_fault hended h (Bool.not_eq_true _ ▸ hlimit)
    refine ⟨before, t, after, hts, hrest, found_and_place_of_rest h hrest, ?_⟩
    intro hexpected hending
    unfold Progress.Faults at hfault
    rw [if_pos hending] at hfault
    exact Progress.ne_endOfInput_of_complete hfault hexpected

end Reader

end FormulaTree
