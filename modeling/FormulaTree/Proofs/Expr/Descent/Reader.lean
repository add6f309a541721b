import FormulaTree.Proofs.Expr.Descent.Operand

/-!
# A reader descends

What a function of the descent has still to do when it returns is what a reader has open: an operand
behind a sign returns to the sign, and the last argument of a call to the call. So the two go hand in
hand, from an operand to the token behind it, and a call of a reader does what the descent does.
-/

namespace FormulaTree

namespace Descent

open Progress (Passes Reads Ends)

variable {α : Type} {p p' q : Progress} {level level' depth : Nat} {ts ts' us : List Token.Placed}
  {e : Expr} {x : Descent α} {f : α → Descent Expr} {s t : Cursor}

/-! ## Hand in hand -/

/-- How reading an expression of a level ends, from `ts` on, when a reader does it from `p` on. -/
inductive Meets (p : Progress) (level : Nat) (ts : List Token.Placed) :
    Except Fault Expr → Cursor → Prop where
  | read {e : Expr} {q : Progress} {us : List Token.Placed} (hpasses : Passes p ts q us)
      (hlt : us.length < ts.length) (hreads : Reads p level e q)
      (hends : Ends level q (Token.ahead us)) : Meets p level ts (.ok e) ⟨us, p.nesting, q.operators⟩
  | refused {cause : Expectation} {q : Progress} {us : List Token.Placed}
      (hrun : p.run ts = ⟨.error cause, q, us⟩) :
      Meets p level ts (.error (.refused cause)) ⟨us, q.nesting, q.operators⟩

/-- Whether a descent comes to an end as a reader does. -/
def Follows (p : Progress) (level : Nat) (ts : List Token.Placed) (x : Descent Expr)
    (s : Cursor) : Prop :=
  ∃ a t, Gives x s a t ∧ Meets p level ts a t

/-- Whether expressions of a level are read from `ts` on as a reader reads them. From one token to
the next the descent goes through the levels, and so six calls deeper at most. -/
def Agrees (level : Nat) (ts : List Token.Placed) : Prop :=
  ∀ (depth : Nat) (p : Progress), 6 * ts.length + 7 ≤ depth + level → p.AwaitsOperand →
    (p.awaited = .argument → Token.ahead ts ≠ .rightParen) → Frame.level p.frames ≤ level →
    Follows p level ts (expression depth level) ⟨ts, p.nesting, p.operators⟩

theorem Follows.bind {a : α} (hx : Gives x s (.ok a) t) (h : Follows p level ts (f a) t) :
    Follows p level ts (x >>= f) s := by
  obtain ⟨b, u, hgives, hmeets⟩ := h
  exact ⟨b, u, hx.bind hgives, hmeets⟩

/-- An expression that is a part of another one is read first. -/
theorem Follows.andThen {y : Descent Expr} {g : Expr → Descent Expr}
    (hy : Follows p' level' ts' y s) (hpasses : Passes p ts p' ts')
    (hg : ∀ e q us, Passes p ts q us → us.length < ts'.length → Reads p' level' e q →
      Ends level' q (Token.ahead us) →
      Follows p level ts (g e) ⟨us, p'.nesting, q.operators⟩) :
    Follows p level ts (y >>= g) s := by
  obtain ⟨a, t, hgives, hmeets⟩ := hy
  cases hmeets with
  | read hinside hlt hreads hends =>
    obtain ⟨b, u, hrest, hend⟩ := hg _ _ _ (hpasses.trans hinside) hlt hreads hends
    exact ⟨b, u, hgives.bind hrest, hend⟩
  | refused hrun => exact ⟨_, _, hgives.bind_error, .refused (hpasses.run_eq.trans hrun)⟩

theorem follows_pure (hpasses : Passes p ts q us) (hlt : us.length < ts.length)
    (hreads : Reads p level e q) (hends : Ends level q (Token.ahead us)) :
    Follows p level ts (pure e) ⟨us, p.nesting, q.operators⟩ :=
  ⟨_, _, gives_pure e _, .read hpasses hlt hreads hends⟩

/-- An operand that is read as a whole is what stands behind `p`. -/
theorem follows_whole {outer operators : Nat}
    (hpasses : Passes p ts ⟨p.frames, .continuation e, outer, operators⟩ us)
    (hlt : us.length < ts.length) (houter : outer = p.outer)
    (hoperators : operators = p.operators + e.operatorCount)
    (hcall : Token.ahead us = .leftParen → ∀ f, e ≠ .name f) :
    Follows p 5 ts (pure e) ⟨us, p.nesting, operators⟩ :=
  follows_pure hpasses hlt ⟨houter, hoperators, e, rfl, fun _ _ => rfl⟩
    ⟨fun h f hf => hcall h f (Awaited.continuation.inj hf),
      fun o _ => Nat.lt_succ_of_le o.precedence_le_four, fun h => absurd h (by decide)⟩

/-- Both give up for the same cause, at the same token and with the same counts. -/
theorem follows_of_run {y : Descent Expr} {cause : Expectation} {r : Progress}
    {vs : List Token.Placed} (hgives : Gives y s (.error (.refused cause)) t)
    (hpasses : Passes p ts q us) (hrun : q.run us = ⟨.error cause, r, vs⟩)
    (ht : t = ⟨vs, r.nesting, r.operators⟩) : Follows p level ts y s := by
  subst ht
  exact ⟨_, _, hgives, .refused (hpasses.run_eq.trans hrun)⟩

/-! ## Operators -/

/-- What `furtherOperators` does behind an operand that is read up to `us`. -/
def OperatorsFollow (p : Progress) (level : Nat) (ts us : List Token.Placed) : Prop :=
  ∀ depth left q, 6 * us.length < depth → Passes p ts q us → Reads p level left q →
    Ends (level + 1) q (Token.ahead us) →
    Follows p level ts (furtherOperators depth level left) ⟨us, p.nesting, q.operators⟩

theorem follows_operator {o : BinaryOp} {left : Expr} {a : Token.Placed} (ha : a.token = .op o)
    (hdepth : 6 * us.length + 6 ≤ depth) (hframes : Frame.level p.frames ≤ o.precedence)
    (ih : Agrees (o.precedence + 1) us)
    (further : ∀ vs, vs.length < us.length → OperatorsFollow p o.precedence ts vs)
    (hpasses : Passes p ts q (a :: us)) (hreads : Reads p o.precedence left q) :
    Follows p o.precedence ts
      (do
        advance
        count
        let right ← expression depth (o.precedence + 1)
        furtherOperators depth o.precedence (.binary left o right))
      ⟨a :: us, p.nesting, q.operators⟩ := by
  have hne : a.token ≠ .ending := by simp [ha]
  have htake : q.take a.token = if q.operators < maxOperators then .ok (p.behindOperator left o)
      else .error .fewerOperators := by
    rw [ha]
    exact (hreads.leads_operator hframes).take_eq_operator
  refine Follows.bind (gives_advance hne _ _) ?_
  by_cases hmax : q.operators < maxOperators
  · rw [if_pos hmax] at htake
    refine Follows.bind (gives_count _ hmax) ?_
    have hright := ih depth (p.behindOperator left o) (by omega) (.inl rfl)
      (fun h => absurd h (by simp [Progress.behindOperator])) (Nat.le_refl _)
    have hoperators : (p.behindOperator left o).operators = q.operators + 1 := by
      rw [hreads.operators_eq]
      rfl
    rw [Progress.nesting_behindOperator, hoperators] at hright
    refine hright.andThen (hpasses.trans (.take hne htake)) ?_
    intro right r vs hpass hless hreadsRight hendsRight
    rw [Progress.nesting_behindOperator]
    exact further vs hless depth _ r (by omega) hpass (hreadsRight.binary hframes) hendsRight
  · rw [if_neg hmax] at htake
    have hsigns : q.applySigns a.token = q.applySigns .ending :=
      Progress.applySigns_eq_ending fun h => absurd (ha.symm.trans h) (by simp)
    refine follows_of_run (gives_count_of_le _ (Nat.le_of_not_lt hmax)).bind_error hpasses
      (Progress.run_of_excess hne htake rfl) ?_
    rw [hsigns, hreads.nesting_applySigns hframes o.precedence_le_four, hreads.operators_applySigns]

theorem follows_furtherOperators (hfour : level ≤ 4) (hframes : Frame.level p.frames ≤ level)
    (ih : ∀ us, us.length < ts.length → Agrees (level + 1) us) (us : List Token.Placed)
    (hlt : us.length < ts.length) : OperatorsFollow p level ts us := by
  -- Each further operator, with its right operand, becomes the left operand of the next.
  induction hn : us.length using Nat.strong_induction_on generalizing us with
  | h n further =>
  subst hn
  intro depth left q hdepth hpasses hreads hends
  obtain ⟨depth, rfl⟩ := Nat.exists_eq_succ_of_ne_zero (Nat.ne_zero_of_lt hdepth)
  have hpure (hop : ∀ o, Token.ahead us = .op o → o.precedence ≠ level)
      (hequals : level = 1 → Token.ahead us ≠ .doubleEquals) :
      Follows p level ts (pure left) ⟨us, p.nesting, q.operators⟩ := by
    refine follows_pure hpasses hlt hreads ⟨hends.no_call, fun o ho => ?_, hequals⟩
    exact Nat.lt_of_le_of_ne (Nat.le_of_lt_succ (hends.no_operator o ho)) (hop o ho)
  rw [furtherOperators]
  refine Follows.bind (gives_current _) ?_
  cases hus : Token.ahead us with
  | op o =>
    dsimp only
    by_cases ho : o.precedence = level
    · rw [if_pos ho]
      subst ho
      obtain ⟨a, vs, rfl, ha⟩ := Token.exists_of_ahead us (by simp [hus])
      rw [hus] at ha
      have hless := Nat.lt_of_succ_lt hlt
      rw [List.length_cons] at hdepth
      exact follows_operator ha (by omega) hframes (ih vs hless)
        (fun ws hws => further ws.length (Nat.lt_succ_of_lt hws) ws (Nat.lt_trans hws hless) rfl)
        hpasses hreads
    · rw [if_neg ho]
      refine hpure (fun o' ho' => ?_) (by simp [hus])
      rw [hus] at ho'
      cases ho'
      exact ho
  | doubleEquals =>
    dsimp only
    by_cases hlevel : level = 1
    · rw [if_pos hlevel]
      have hfault : q.Faults (Token.ahead us) .singleEquals := by
        rw [hus]
        exact .of_take (by simp) (Progress.take_doubleEquals q)
      obtain ⟨r, hrun, hnesting, hoperators⟩ :=
        hreads.run_of_faults hframes hfour hends hfault rfl
      refine follows_of_run (gives_refuse _ _) hpasses hrun ?_
      rw [hnesting, hoperators]
    · rw [if_neg hlevel]
      exact hpure (by simp [hus]) fun h => absurd h hlevel
  | _ => exact hpure (by simp [hus]) (by simp [hus])

/-! ## Constructs -/

/-- Whether a construct was opened behind `p`, in which `c` stands now. -/
structure Inside (p : Progress) (f : Frame) (c : Progress) : Prop where
  frames_eq : c.frames = f :: p.frames
  outer_eq : c.outer = p.outer
  operators_eq : c.operators = p.operators + f.operatorCount
  depth_eq : f.depth = 1

variable {frame : Frame} {name : String} {args : List Expr} {c : Progress} {a : Token.Placed}

theorem Inside.nesting_eq (h : Inside p frame c) : c.nesting = p.nesting + 1 := by
  rw [Progress.nesting, Progress.nesting, h.frames_eq, h.outer_eq, Frame.nestingOf, h.depth_eq]
  omega

theorem inside_opened (awaited : Awaited) (hdepth : frame.depth = 1)
    (hcount : frame.operatorCount = 0) : Inside p frame (p.opened frame awaited) :=
  ⟨rfl, rfl, by rw [hcount]; rfl, hdepth⟩

theorem inside_argument (hc : Inside p (.call name args) c) (e : Expr) :
    Inside p (.call name (e :: args))
      ⟨.call name (e :: args) :: p.frames, .operand, c.outer, c.operators + e.operatorCount⟩ := by
  refine ⟨rfl, hc.outer_eq, ?_, rfl⟩
  rw [hc.operators_eq, Frame.operatorCount, Frame.operatorCount, Expr.operatorCountAll]
  dsimp only
  omega

/-- A construct is opened unless it is one level too deep. -/
theorem follows_enter {y : Descent Expr} (hne : a.token ≠ .ending)
    (hpasses : Passes p ts q (a :: us)) (hnesting : q.nesting = p.nesting)
    (hoperators : q.operators = p.operators) (hsigns : q.applySigns a.token = q)
    (htake : q.take a.token = if q.nesting < maxNesting then .ok c else .error .shallowerNesting)
    (h : Passes p ts c us → Follows p 5 ts y ⟨us, p.nesting + 1, p.operators⟩) :
    Follows p 5 ts
      (do
        advance
        enter
        y)
      ⟨a :: us, p.nesting, p.operators⟩ := by
  refine Follows.bind (gives_advance hne _ _) ?_
  by_cases hmax : p.nesting < maxNesting
  · rw [hnesting, if_pos hmax] at htake
    exact Follows.bind (gives_enter _ hmax) (h (hpasses.trans (.take hne htake)))
  · rw [hnesting, if_neg hmax] at htake
    have hrun : q.run (a :: us) = ⟨.error .shallowerNesting, q.applySigns a.token, us⟩ :=
      Progress.run_of_excess hne htake rfl
    refine follows_of_run (gives_enter_of_le _ (Nat.le_of_not_lt hmax)).bind_error hpasses hrun ?_
    rw [hsigns, hnesting, hoperators]

/-- What stands behind the last operand in a construct closes the construct or is refused. -/
theorem follows_close {whole : Expr} (hc : Inside p frame c) (hlevel : Frame.level c.frames ≤ 1)
    (hpasses : Passes p ts q us) (hlt : us.length < ts.length) (hreads : Reads c 1 e q)
    (hends : Ends 1 q (Token.ahead us))
    (htake : q.take .rightParen =
      .ok ⟨p.frames, .continuation whole, c.outer, c.operators + e.operatorCount⟩)
    (hwhole : whole.operatorCount = frame.operatorCount + e.operatorCount)
    (hname : ∀ f, whole ≠ .name f)
    (hblocks : Token.ahead us ≠ .rightParen → Frame.Blocks (Token.ahead us) c.frames) :
    Follows p 5 ts
      (do
        close
        return whole)
      ⟨us, p.nesting + 1, q.operators⟩ := by
  by_cases hclose : Token.ahead us = .rightParen
  · obtain ⟨a, vs, rfl, ha⟩ := Token.exists_of_ahead us (by simp [hclose])
    rw [hclose] at ha
    rw [← ha] at htake
    have hpass := hpasses.trans (.take (by simp [ha]) htake)
    refine Follows.bind (gives_close ha _ _) ?_
    rw [hreads.operators_eq]
    refine follows_whole hpass (Nat.lt_of_succ_lt hlt) hc.outer_eq ?_ fun _ => hname
    rw [hwhole, hc.operators_eq, Nat.add_assoc]
  · have hfault := hreads.faults hends (hblocks hclose)
    rw [hc.frames_eq] at hfault
    obtain ⟨r, hrun, hnesting, hoperators⟩ :=
      hreads.run_of_faults hlevel (by decide) hends hfault rfl
    refine follows_of_run (gives_close_of_ne _ hclose).bind_error hpasses hrun ?_
    rw [hnesting, hoperators, hc.nesting_eq]

/-! ## Calls -/

theorem level_le_of_inside_call (hc : Inside p (.call name args) c) : Frame.level c.frames ≤ 1 := by
  rw [hc.frames_eq]
  exact Nat.le_refl 1

theorem follows_furtherArguments (ih : ∀ us, us.length < ts.length → Agrees 1 us)
    (us : List Token.Placed) (hlt : us.length < ts.length) (hdepth : 6 * us.length < depth)
    (hc : Inside p (.call name args) c) (hpasses : Passes p ts q us) (hreads : Reads c 1 e q)
    (hends : Ends 1 q (Token.ahead us)) :
    Follows p 5 ts (furtherArguments depth name (e :: args)) ⟨us, p.nesting + 1, q.operators⟩ := by
  induction hn : us.length using Nat.strong_induction_on generalizing us depth args c e q with
  | h n further =>
  subst hn
  obtain ⟨depth, rfl⟩ := Nat.exists_eq_succ_of_ne_zero (Nat.ne_zero_of_lt hdepth)
  rw [furtherArguments]
  refine Follows.bind (gives_current _) ?_
  by_cases hcomma : Token.ahead us = .comma
  · obtain ⟨a, vs, rfl, ha⟩ := Token.exists_of_ahead us (by simp [hcomma])
    rw [hcomma] at ha
    rw [if_pos hcomma]
    have hne : a.token ≠ .ending := by simp [ha]
    have htake := hreads.take_comma hc.frames_eq
    rw [← ha] at htake
    have hless := Nat.lt_of_succ_lt hlt
    have hnext := inside_argument hc e
    rw [List.length_cons] at hdepth
    have hargument := ih vs hless depth _ (by omega) (.inl rfl) (fun h => absurd h (by simp))
      (level_le_of_inside_call hnext)
    rw [hnext.nesting_eq] at hargument
    refine Follows.bind (gives_advance hne _ _) ?_
    rw [hreads.operators_eq]
    refine hargument.andThen (hpasses.trans (.take hne htake)) ?_
    intro d r ws hpass hlessAgain hreadsNext hendsNext
    rw [hnext.nesting_eq]
    exact further ws.length (Nat.lt_succ_of_lt hlessAgain) ws (Nat.lt_trans hlessAgain hless)
      (by omega) hnext hpass hreadsNext hendsNext rfl
  · rw [if_neg hcomma]
    refine follows_close hc (level_le_of_inside_call hc) hpasses hlt hreads hends
      (hreads.take_closeCall hc.frames_eq) ?_ (by simp) fun hclose => ?_
    · rw [Expr.operatorCount, Expr.operatorCountAll_reverse, Expr.operatorCountAll,
        Frame.operatorCount, Nat.add_comm]
    · rw [hc.frames_eq]
      exact ⟨hclose, hcomma⟩

theorem follows_arguments (ih : ∀ us, us.length < ts.length → Agrees 1 us)
    (hlt : us.length < ts.length) (hdepth : 6 * us.length + 7 ≤ depth)
    (hc : Inside p (.call name []) c) (hawaited : c.awaited = .argument)
    (hpasses : Passes p ts c us) :
    Follows p 5 ts (arguments depth name) ⟨us, p.nesting + 1, p.operators⟩ := by
  obtain ⟨depth, rfl⟩ := Nat.exists_eq_succ_of_ne_zero (Nat.ne_zero_of_lt hdepth)
  have hoperators : c.operators = p.operators := hc.operators_eq
  rw [arguments]
  refine Follows.bind (gives_current _) ?_
  by_cases hclose : Token.ahead us = .rightParen
  · obtain ⟨a, vs, rfl, ha⟩ := Token.exists_of_ahead us (by simp [hclose])
    rw [if_pos hclose]
    rw [hclose] at ha
    have htake := Progress.take_of_move (.inr hawaited) (.closeEmpty hawaited hc.frames_eq)
    rw [← ha] at htake
    have hpass := hpasses.trans (.take (by simp [ha]) htake)
    refine Follows.bind (gives_close ha _ _) ?_
    rw [← hoperators]
    exact follows_whole hpass (Nat.lt_of_succ_lt hlt) hc.outer_eq hoperators (by simp)
  · rw [if_neg hclose]
    have hargument := ih us hlt depth c (by omega) (.inr hawaited) (fun _ => hclose)
      (level_le_of_inside_call hc)
    rw [hc.nesting_eq, hoperators] at hargument
    refine hargument.andThen hpasses ?_
    intro e q vs hpass hless hreads hends
    rw [hc.nesting_eq]
    exact follows_furtherArguments ih vs (Nat.lt_trans hless hlt) (by omega) hc hpass hreads hends

/-! ## Operands -/

theorem expression_five (depth : Nat) : expression (depth + 1) 5 = operand depth := rfl

/-- A literal or a name that opens no call. -/
theorem follows_leaf (hne : a.token ≠ .ending)
    (htake : p.take a.token = .ok { p with awaited := .continuation e })
    (hcount : e.operatorCount = 0) (hcall : Token.ahead us = .leftParen → ∀ f, e ≠ .name f) :
    Follows p 5 (a :: us) (pure e) ⟨us, p.nesting, p.operators⟩ := by
  refine follows_whole (.take hne htake) (Nat.lt_succ_self _) rfl ?_ hcall
  rw [hcount, Nat.add_zero]

theorem follows_name (hp : p.AwaitsOperand) (ha : a.token = .name name)
    (hdepth : 6 * us.length + 6 ≤ depth) (ih : ∀ vs, vs.length < (a :: us).length → Agrees 1 vs) :
    Follows p 5 (a :: us)
      (do
        if (← current) = .leftParen then
          advance
          enter
          arguments depth name
        else
          return .name name)
      ⟨us, p.nesting, p.operators⟩ := by
  have hne : a.token ≠ .ending := by simp [ha]
  have htake : p.take a.token = .ok { p with awaited := .continuation (.name name) } := by
    rw [ha]
    exact Progress.take_of_move hp (.name name hp)
  refine Follows.bind (gives_current _) ?_
  by_cases hopen : Token.ahead us = .leftParen
  · rw [if_pos hopen]
    obtain ⟨b, vs, rfl, hb⟩ := Token.exists_of_ahead us (by simp [hopen])
    rw [hopen] at hb
    have hleads := Progress.leads_openCall (p := { p with awaited := .continuation (.name name) })
      name rfl
    refine follows_enter (c := p.opened (.call name []) .argument) (by simp [hb])
      (.take hne htake) rfl rfl ?_ (hb ▸ hleads.take_eq_opens) fun hpasses => ?_
    · rw [hb, Progress.applySigns_name rfl]
    · rw [List.length_cons] at hdepth
      exact follows_arguments ih (by simp) (by omega) (inside_opened _ rfl rfl) rfl hpasses
  · rw [if_neg hopen]
    exact follows_leaf hne htake rfl fun h => absurd h hopen

theorem follows_paren (hp : p.AwaitsOperand) (ha : a.token = .leftParen)
    (hdepth : 6 * us.length + 6 ≤ depth) (ih : Agrees 1 us) :
    Follows p 5 (a :: us)
      (do
        advance
        enter
        let inner ← expression depth 1
        close
        return .paren inner)
      ⟨a :: us, p.nesting, p.operators⟩ := by
  have hleads := Progress.leads_openParen hp
  refine follows_enter (c := p.opened .paren .operand) (by simp [ha]) (.refl p _) rfl rfl
    (Progress.applySigns_of_awaitsOperand hp _) (ha ▸ hleads.take_eq_opens) fun hpasses => ?_
  have hc : Inside p .paren (p.opened .paren .operand) := inside_opened _ rfl rfl
  have hinner := ih depth (p.opened .paren .operand) (by omega) (.inl rfl) nofun (Nat.le_refl 1)
  rw [hc.nesting_eq] at hinner
  refine hinner.andThen hpasses ?_
  intro e q vs hpass hless hreads hends
  rw [hc.nesting_eq]
  refine follows_close hc (Nat.le_refl 1) hpass (Nat.lt_succ_of_lt hless) hreads hends
    (hreads.take_closeParen rfl) ?_ (by simp) fun hclose => hclose
  rw [Expr.operatorCount, Frame.operatorCount, Nat.zero_add]

theorem follows_sign {o : BinaryOp} {sign : Sign} (hp : p.AwaitsOperand) (ha : a.token = .op o)
    (hsign : o.sign? = some sign) (hdepth : 6 * us.length + 6 ≤ depth) (ih : Agrees 5 us) :
    Follows p 5 (a :: us)
      (do
        advance
        enter
        let e ← operand depth
        leave
        return .unary sign e)
      ⟨a :: us, p.nesting, p.operators⟩ := by
  have hleads := Progress.leads_sign sign hp
  rw [Sign.token_eq_of_sign? hsign, ← ha] at hleads
  refine follows_enter (c := p.opened (.sign sign) .operand) (by simp [ha]) (.refl p _) rfl rfl
    (Progress.applySigns_of_awaitsOperand hp _) hleads.take_eq_opens fun hpasses => ?_
  have hc : Inside p (.sign sign) (p.opened (.sign sign) .operand) := inside_opened _ rfl rfl
  have hinner := ih (depth + 1) (p.opened (.sign sign) .operand) (by omega) (.inl rfl)
    nofun (Nat.le_refl 5)
  rw [hc.nesting_eq, expression_five] at hinner
  refine hinner.andThen hpasses ?_
  intro e q vs hpass hless hreads hends
  rw [hc.nesting_eq]
  refine Follows.bind (gives_leave _ _ _) ?_
  exact follows_pure hpass (Nat.lt_succ_of_lt hless) hreads.unary hends

/-- A token that starts no operand is refused. -/
theorem follows_refuse {cause : Expectation} (hp : p.AwaitsOperand)
    (hclose : p.awaited = .argument → Token.ahead ts ≠ .rightParen)
    (hstart : p.start (Token.ahead ts) = .error cause) (hcause : cause.isLimit = false) :
    Follows p 5 ts (refuse cause) ⟨ts, p.nesting, p.operators⟩ := by
  have hfault := Progress.faults_of_awaitsOperand hp hclose hstart
  refine follows_of_run (gives_refuse cause _) (.refl p ts)
    (Progress.run_of_faults hfault hcause) ?_
  rw [Progress.applySigns_of_awaitsOperand hp]

theorem follows_operand (hdepth : 6 * ts.length < depth) (hp : p.AwaitsOperand)
    (hclose : p.awaited = .argument → Token.ahead ts ≠ .rightParen)
    (ih : ∀ us, us.length < ts.length → Agrees 1 us ∧ Agrees 5 us) :
    Follows p 5 ts (operand depth) ⟨ts, p.nesting, p.operators⟩ := by
  obtain ⟨depth, rfl⟩ := Nat.exists_eq_succ_of_ne_zero (Nat.ne_zero_of_lt hdepth)
  rw [operand]
  refine Follows.bind (gives_current _) ?_
  -- What can start an operand is the first token of the list; anything else is refused.
  cases hts : Token.ahead ts with
  | number text =>
    obtain ⟨a, us, rfl, ha⟩ := Token.exists_of_ahead ts (by simp [hts])
    rw [hts] at ha
    have hne : a.token ≠ .ending := by simp [ha]
    refine Follows.bind (gives_advance hne _ _) ?_
    exact follows_leaf hne (ha ▸ Progress.take_of_move hp (.number text hp)) rfl (by simp)
  | string contents =>
    obtain ⟨a, us, rfl, ha⟩ := Token.exists_of_ahead ts (by simp [hts])
    rw [hts] at ha
    have hne : a.token ≠ .ending := by simp [ha]
    refine Follows.bind (gives_advance hne _ _) ?_
    exact follows_leaf hne (ha ▸ Progress.take_of_move hp (.string contents hp)) rfl (by simp)
  | name text =>
    obtain ⟨a, us, rfl, ha⟩ := Token.exists_of_ahead ts (by simp [hts])
    rw [hts] at ha
    refine Follows.bind (gives_advance (by simp [ha]) _ _) ?_
    rw [List.length_cons] at hdepth
    exact follows_name hp ha (by omega) fun vs hvs => (ih vs hvs).1
  | leftParen =>
    obtain ⟨a, us, rfl, ha⟩ := Token.exists_of_ahead ts (by simp [hts])
    rw [hts] at ha
    rw [List.length_cons] at hdepth
    exact follows_paren hp ha (by omega) (ih us (Nat.lt_succ_self _)).1
  | op o =>
    dsimp only
    cases hsign : o.sign? with
    | some sign =>
      obtain ⟨a, us, rfl, ha⟩ := Token.exists_of_ahead ts (by simp [hts])
      rw [hts] at ha
      rw [List.length_cons] at hdepth
      exact follows_sign hp ha hsign (by omega) (ih us (Nat.lt_succ_self _)).2
    | none =>
      refine follows_refuse hp hclose ?_ rfl
      rw [hts, Progress.start, hsign]
  | _ => exact follows_refuse hp hclose (by rw [hts, Progress.start]) rfl

/-! ## Expressions -/

theorem agrees_five (ih : ∀ us, us.length < ts.length → Agrees 1 us ∧ Agrees 5 us) :
    Agrees 5 ts := by
  intro depth p hdepth hp hclose _
  obtain ⟨depth, rfl⟩ := Nat.exists_eq_add_one_of_ne_zero (by omega : depth ≠ 0)
  rw [expression_five]
  exact follows_operand (by omega) hp hclose ih

/-- An expression of a level is one of the next level with the operators behind it. -/
theorem agrees_of_succ (hfour : level ≤ 4) (h : Agrees (level + 1) ts)
    (ih : ∀ us, us.length < ts.length → Agrees (level + 1) us) : Agrees level ts := by
  intro depth p hdepth hp hclose hframes
  obtain ⟨depth, rfl⟩ := Nat.exists_eq_add_one_of_ne_zero (by omega : depth ≠ 0)
  rw [expression, if_pos (Nat.lt_succ_of_le hfour)]
  refine (h depth p (by omega) hp hclose (Nat.le_succ_of_le hframes)).andThen (.refl p ts) ?_
  intro left q us hpass hless hreads hends
  exact follows_furtherOperators hfour hframes ih us hless depth left q (by omega) hpass
    (hreads.mono (Nat.le_succ level)) hends

/-- On every level the descent reads as a reader does. What is left to read gets shorter with each
token, and at one token the levels go up to that of an operand. -/
theorem agrees (ts : List Token.Placed) (hfive : level ≤ 5) : Agrees level ts := by
  induction hn : ts.length using Nat.strong_induction_on generalizing ts level with
  | h n ih =>
  subst hn
  induction hfive using Nat.decreasingInduction with
  | self =>
    exact agrees_five fun us hless =>
      ⟨ih us.length hless us (by decide) rfl, ih us.length hless us (Nat.le_refl 5) rfl⟩
  | of_succ level hlevel h =>
    exact agrees_of_succ (Nat.le_of_lt_succ hlevel) h fun us hless =>
      ih us.length hless us hlevel rfl

/-! ## Formulas -/

/-- From every state the descent comes to an end, and to what a run comes to. -/
theorem gives_formula {depth : Nat} (ts : List Token.Placed) (nesting operators : Nat)
    (hdepth : 6 * ts.length + 6 ≤ depth) :
    let stop := (Progress.mk [] .operand nesting operators).run ts
    Gives (formula depth) ⟨ts, nesting, operators⟩ (stop.result.mapError .refused)
      ⟨stop.rest, stop.progress.nesting, stop.progress.operators⟩ := by
  have hfollows := agrees ts (by decide : 1 ≤ 5) depth ⟨[], .operand, nesting, operators⟩
    (by omega) (.inl rfl) nofun (Nat.le_refl 1)
  obtain ⟨a, t, hgives, hmeets⟩ := hfollows
  rw [formula]
  cases hmeets with
  | refused hrun =>
    rw [hrun]
    exact hgives.bind_error
  | @read e q us hpasses hlt hreads hends =>
    -- Behind the expression there is the end, or a token that is left over.
    rw [hpasses.run_eq]
    refine hgives.bind (Gives.bind (gives_current _) ?_)
    by_cases hending : Token.ahead us = .ending
    · rw [if_pos hending, Progress.run_of_ending hending, hreads.complete rfl]
      dsimp only
      rw [hreads.nesting_applySigns (Nat.le_refl 1) (by decide), hreads.operators_applySigns]
      exact gives_pure e _
    · rw [if_neg hending]
      have hfault := hreads.faults hends hending
      obtain ⟨r, hrun, hnesting, hoperators⟩ :=
        hreads.run_of_faults (Nat.le_refl 1) (by decide) hends hfault rfl
      rw [hrun, ← hnesting, ← hoperators]
      exact gives_refuse _ _

end Descent

/-- Where a reader stands, and what it counts. -/
def Reader.cursor (r : Reader) : Cursor :=
  ⟨r.rest, r.nesting, r.operators⟩

/-- A call of a reader is a descent. -/
theorem Reader.gives_formula {depth : Nat} (r : Reader) (hdepth : 6 * r.rest.length + 6 ≤ depth) :
    Descent.Gives (Descent.formula depth) r.cursor
      (r.read.1.mapError fun m => .refused m.expected) r.read.2.cursor := by
  have hresult : r.read.1.mapError (fun m => Fault.refused m.expected) =
      (r.read.1.mapError Mismatch.expected).mapError .refused := by
    cases r.read.1 with
    | error m => rfl
    | ok e => rfl
  rw [hresult, mapError_read]
  exact Descent.gives_formula r.rest r.nesting r.operators hdepth

end FormulaTree
