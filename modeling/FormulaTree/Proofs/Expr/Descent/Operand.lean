import FormulaTree.Proofs.Expr.Descent.Basic
import FormulaTree.Proofs.Expr.DoubleEquals

/-!
# From an operand to the token behind it

A run that takes an operand comes to the token behind it, and there it goes on, ends what is open or
stops. A reader applies signs and operators only when it sees that token, and `Progress.Reads` says
what they come to.
-/

namespace FormulaTree

theorem Token.exists_of_ahead (ts : List Token.Placed) (h : ahead ts ≠ .ending) :
    ∃ t us, ts = t :: us ∧ t.token = ahead ts := by
  cases ts with
  | nil => exact absurd rfl h
  | cons t us => exact ⟨t, us, rfl, rfl⟩

namespace Frame

/-- Signs are applied to an operand only if they stand in front of it. -/
theorem eq_name_of_applySigns {e : Expr} {fs : List Frame} {f : String}
    (h : (applySigns e fs).1 = .name f) : e = .name f := by
  induction fs generalizing e with
  | nil => exact h
  | cons frame fs ih =>
    cases frame with
    | sign s => exact absurd (ih (e := .unary s e) h) (by simp)
    | _ => exact h

/-- Operators open no level of nesting. -/
theorem nestingOf_applyOperators (m : Nat) (e : Expr) (fs : List Frame) :
    nestingOf (applyOperators m e fs).2 = nestingOf fs := by
  induction fs generalizing e with
  | nil => rfl
  | cons frame fs ih =>
    cases frame with
    | operator left o =>
      unfold applyOperators
      split
      · rw [ih, nestingOf, depth, Nat.zero_add]
      · rfl
    | _ => rfl

/-- What is missing behind an operand, by the constructs that are open. -/
def missing : List Frame → Expectation
  | [] => .endOfInput
  | _ :: _ => .token ")"

/-- Whether a token neither closes the innermost construct nor continues it. -/
def Blocks (t : Token) : List Frame → Prop
  | [] => t ≠ .ending
  | .paren :: _ => t ≠ .rightParen
  | .call _ _ :: _ => t ≠ .rightParen ∧ t ≠ .comma
  | .sign _ :: _ | .operator _ _ :: _ => False

theorem settle_of_blocks {t : Token} {fs : List Frame} {m : Nat} {e : Expr} (h : Blocks t fs) :
    settle m e fs = (e, fs) := by
  cases fs with
  | nil => rfl
  | cons f fs =>
    cases f with
    | sign _ | operator _ _ => exact absurd h id
    | _ => rfl

end Frame

namespace Progress

variable {p q r : Progress} {ts us vs : List Token.Placed} {t : Token.Placed} {k : Token}
  {e : Expr} {level m n : Nat} {cause : Expectation}

/-! ## Parts of a run -/

/-- Whether the tokens of `ts` in front of `us` take `p` to `q`. -/
def Passes (p : Progress) (ts : List Token.Placed) (q : Progress) (us : List Token.Placed) : Prop :=
  ∃ before, ts = before ++ us ∧ (∀ t ∈ before, t.token ≠ .ending) ∧
    p.feed (before.map Token.Placed.token) = .ok q

theorem Passes.refl (p : Progress) (ts : List Token.Placed) : Passes p ts p ts :=
  ⟨[], rfl, by simp, rfl⟩

theorem Passes.trans (h : Passes p ts q us) (h' : Passes q us r vs) : Passes p ts r vs := by
  obtain ⟨before, rfl, hbefore, hfeed⟩ := h
  obtain ⟨more, rfl, hmore, hfeedMore⟩ := h'
  refine ⟨before ++ more, (List.append_assoc _ _ _).symm, ?_, ?_⟩
  · exact List.forall_mem_append.mpr ⟨hbefore, hmore⟩
  · rw [List.map_append, feed_append_of_feed hfeed, hfeedMore]

theorem Passes.take (ht : t.token ≠ .ending) (htake : p.take t.token = .ok q) :
    Passes p (t :: ts) q ts :=
  ⟨[t], rfl, by simpa using ht, feed_cons htake []⟩

theorem Passes.run_eq (h : Passes p ts q us) : p.run ts = q.run us := by
  obtain ⟨before, rfl, hbefore, hfeed⟩ := h
  exact run_append hbefore hfeed us

theorem run_of_ending (h : Token.ahead ts = .ending) :
    p.run ts = ⟨p.complete, p.applySigns .ending, ts⟩ := by
  cases ts with
  | nil => rfl
  | cons t ts =>
    have ht : t.token = .ending := h
    unfold run
    simp only [ht, ↓reduceIte]
    rfl

/-- A run stops at a token at fault. -/
theorem run_of_faults (h : p.Faults (Token.ahead ts) cause) (hcause : cause.isLimit = false) :
    p.run ts = ⟨.error cause, p.applySigns (Token.ahead ts), ts⟩ := by
  by_cases hending : Token.ahead ts = .ending
  · unfold Faults at h
    rw [if_pos hending] at h
    rw [run_of_ending hending, h, hending]
  · obtain ⟨t, us, rfl, ht⟩ := Token.exists_of_ahead ts hending
    unfold Faults at h
    rw [if_neg hending, ← ht] at h
    rw [← ht] at hending ⊢
    have hstep : (p.applySigns t.token).step t.token = .error cause := h
    unfold run
    simp only [if_neg hending, hstep, hcause, Bool.false_eq_true, ↓reduceIte]

/-- A run stops behind a token that exceeds a limit. -/
theorem run_of_excess (ht : t.token ≠ .ending) (htake : p.take t.token = .error cause)
    (hcause : cause.isLimit = true) :
    p.run (t :: ts) = ⟨.error cause, p.applySigns t.token, ts⟩ := by
  have hstep : (p.applySigns t.token).step t.token = .error cause := htake
  unfold run
  simp only [if_neg ht, hstep, hcause, ↓reduceIte]

/-! ## Where an operand starts -/

theorem Leads.take_eq_opens (h : Leads p k (.opens n) q) :
    p.take k = if p.nesting < maxNesting then .ok q else .error .shallowerNesting := by
  cases h with
  | opens htake => exact htake

theorem Leads.take_eq_operator (h : Leads p k (.operator n) q) :
    p.take k = if p.operators < maxOperators then .ok q else .error .fewerOperators := by
  cases h with
  | operator htake => exact htake

/-- A token that starts no operand is refused where one has to start. -/
theorem faults_of_awaitsOperand (hp : p.AwaitsOperand)
    (hclose : p.awaited = .argument → k ≠ .rightParen) (hstart : p.start k = .error cause) :
    p.Faults k cause := by
  by_cases hk : k = .ending
  · refine .of_complete hk ?_
    rw [hk] at hstart
    obtain rfl : Expectation.operand = cause := Except.error.inj hstart
    rw [complete, applySigns_of_awaitsOperand hp]
    unfold finish
    rcases hp with hp | hp <;> rw [hp]
  · refine .of_take hk ?_
    rw [Progress.take, applySigns_of_awaitsOperand hp]
    unfold step
    rcases hp with hp | hp
    · rw [hp]
      exact hstart
    · rw [hp]
      dsimp only
      split
      · exact absurd rfl (hclose hp)
      · exact hstart

/-! ## Behind an operand -/

/-- Behind an operand a token finds the signs applied, unless it opens the arguments of a call. -/
theorem Reads.take_eq_extend (h : Reads p level e q)
    (hcall : k = .leftParen → ∀ f, q.awaited ≠ .continuation (.name f)) :
    ∃ d, (q.applySigns .ending).awaited = .continuation d ∧
      q.take k = (q.applySigns .ending).extend d k ∧
      ∀ m ≤ level, Frame.applyOperators m d (q.applySigns .ending).frames =
        Frame.settle m e p.frames := by
  obtain ⟨d, hd, hsettles⟩ := h.settles
  have happly := applySigns_of_continuation (t := .ending) hd fun heq => absurd heq (by decide)
  rw [Progress.take, applySigns_eq_ending hcall, happly]
  refine ⟨(Frame.applySigns d q.frames).1, rfl, ?_, hsettles⟩
  unfold step
  dsimp only
  split
  · rename_i f heq
    exact absurd (hd.trans (congrArg _ (Frame.eq_name_of_applySigns heq))) (hcall rfl f)
  · rfl

theorem Reads.nesting_applySigns (h : Reads p level e q) (hframes : Frame.level p.frames ≤ level)
    (hlevel : level ≤ 4) : (q.applySigns .ending).nesting = p.nesting := by
  obtain ⟨d, -, hfs, houter, -⟩ := h.applySigns (t := .ending) (Nat.le_refl level) (by decide)
  rw [Frame.settle_of_level hframes hlevel] at hfs
  have hnesting := Frame.nestingOf_applyOperators level d (q.applySigns .ending).frames
  rw [hfs] at hnesting
  rw [nesting, nesting, houter, hnesting]

theorem Reads.operators_applySigns (h : Reads p level e q) :
    (q.applySigns .ending).operators = q.operators := by
  obtain ⟨d, -, -, -, hoperators⟩ := h.applySigns (t := .ending) (Nat.zero_le level) (by decide)
  rw [hoperators, h.operators_eq]

theorem extend_of_blocks {d : Expr} {fs : List Frame} (hop : ∀ o, k ≠ .op o)
    (hequals : k ≠ .doubleEquals) (hfs : Frame.applyOperators 0 d p.frames = (e, fs))
    (hblocks : Frame.Blocks k fs) : p.extend d k = .error (Frame.missing fs) := by
  cases k with
  | op o => exact absurd rfl (hop o)
  | doubleEquals => exact absurd rfl hequals
  | _ =>
    unfold extend
    dsimp only
    rw [hfs]
    cases fs with
    | nil => rfl
    | cons f fs =>
      cases f with
      | sign _ | operator _ _ => exact absurd hblocks id
      | paren => first | rfl | exact absurd rfl hblocks
      | call _ _ => first | rfl | exact absurd rfl hblocks.1 | exact absurd rfl hblocks.2

/-- Whether an operand of a level ends in front of a token. -/
structure Ends (level : Nat) (q : Progress) (k : Token) : Prop where
  no_call : k = .leftParen → ∀ f, q.awaited ≠ .continuation (.name f)
  no_operator : ∀ o, k = .op o → o.precedence < level
  no_equals : level = 1 → k ≠ .doubleEquals

/-- A run stops at a token at fault behind an operand, with the signs applied. -/
theorem Reads.run_of_faults (h : Reads p level e q) (hframes : Frame.level p.frames ≤ level)
    (hlevel : level ≤ 4) (hends : Ends n q (Token.ahead us))
    (hfault : q.Faults (Token.ahead us) cause) (hcause : cause.isLimit = false) :
    ∃ r, q.run us = ⟨.error cause, r, us⟩ ∧ r.nesting = p.nesting ∧
      r.operators = q.operators := by
  rw [Progress.run_of_faults hfault hcause, applySigns_eq_ending hends.no_call]
  exact ⟨_, rfl, h.nesting_applySigns hframes hlevel, h.operators_applySigns⟩

/-- A formula that was read up to where the construct `f` opens. -/
def opened (p : Progress) (f : Frame) (awaited : Awaited) : Progress :=
  { p with frames := f :: p.frames, awaited }

/-- A formula that was read up to an operator behind `left`. -/
def behindOperator (p : Progress) (left : Expr) (o : BinaryOp) : Progress :=
  { p with
    frames := .operator left o :: p.frames, awaited := .operand,
    operators := p.operators + left.operatorCount + 1 }

theorem nesting_behindOperator (p : Progress) (left : Expr) (o : BinaryOp) :
    (p.behindOperator left o).nesting = p.nesting :=
  nesting_push p _ _ _

/-- A token that neither goes on with an expression nor ends what is open is refused. -/
theorem Reads.faults (h : Reads p 1 e q) (hends : Ends 1 q k)
    (hblocks : Frame.Blocks k p.frames) : q.Faults k (Frame.missing p.frames) := by
  obtain ⟨d, hd, htake, hfs⟩ := h.take_eq_extend hends.no_call
  have hsettled := (hfs 0 (Nat.zero_le 1)).trans (Frame.settle_of_blocks hblocks)
  by_cases hk : k = .ending
  -- At the end of the input some construct has to be open.
  · refine .of_complete hk ?_
    unfold Progress.complete finish
    rw [hd]
    dsimp only
    rw [hsettled]
    cases hp : p.frames with
    | nil =>
      rw [hp] at hblocks
      exact absurd hk hblocks
    | cons f fs => rfl
  · refine .of_take hk ?_
    rw [htake]
    refine extend_of_blocks (fun o ho => ?_) (hends.no_equals rfl) hsettled hblocks
    exact absurd (hends.no_operator o ho) (Nat.not_lt_of_le o.one_le_precedence)

end Progress

end FormulaTree
