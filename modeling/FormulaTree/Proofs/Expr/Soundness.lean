import FormulaTree.Proofs.Expr.Move

/-!
# What a reader has taken is what it holds

The open constructs of a formula read so far hold complete expressions, each of which the grammar has
where it stands. Written out from the outermost construct to the operand read last, they give the
tokens taken. Every move keeps this, so an expression that is read is one of the grammar, has the
tokens it was read from, and is within the limits.
-/

namespace FormulaTree

namespace Frame

/-- The tokens of a construct up to where its next operand starts. -/
def tokens : Frame → List Token
  | sign s => [s.token]
  | operator left o => left.tokens ++ [.op o]
  | paren => [.leftParen]
  | call f args => .name f :: .leftParen :: args.reverse.flatMap fun e => e.tokens ++ [.comma]

/-- The tokens of the open constructs, which come innermost first. -/
def tokensOf : List Frame → List Token
  | [] => []
  | f :: fs => tokensOf fs ++ f.tokens

/-- The number of binary operators of a construct so far. -/
def operatorCount : Frame → Nat
  | operator left _ => left.operatorCount + 1
  | call _ args => Expr.operatorCountAll args
  | sign _ | paren => 0

/-- The level of the grammar that the operand of the innermost construct belongs to. -/
def level : List Frame → Nat
  | sign _ :: _ => 5
  | operator _ o :: _ => o.precedence + 1
  | _ => 1

/-- The number of binary operators of the open constructs. -/
def operatorsOf : List Frame → Nat
  | [] => 0
  | f :: fs => f.operatorCount + operatorsOf fs

/-- Whether the grammar has everything that the open constructs hold where it stands, nested within
the limit; `outer` levels are around the constructs. -/
def Sound (outer : Nat) : List Frame → Prop
  | [] => True
  | sign _ :: fs | paren :: fs => Sound outer fs
  | operator left o :: fs =>
    Sound outer fs ∧ level fs ≤ o.precedence ∧ left.Fits o.precedence ∧
      left.nesting + (outer + nestingOf fs) ≤ maxNesting
  | call _ args :: fs =>
    Sound outer fs ∧ (∀ e ∈ args, e.Fits 1) ∧
      ∀ e ∈ args, e.nesting + (outer + nestingOf fs + 1) ≤ maxNesting

theorem level_le_five (fs : List Frame) : level fs ≤ 5 := by
  cases fs with
  | nil => decide
  | cons f fs =>
    cases f with
    | operator left o => exact Nat.succ_le_succ o.precedence_le_four
    | sign s => exact Nat.le_refl 5
    | _ => exact Nat.le_of_lt (by decide : 1 < 5)

/-- The operand `e` behind the open constructs `fs`: together they have the tokens `ts` and `n`
binary operators, and everything is where the grammar has it. -/
structure Holds (outer : Nat) (ts : List Token) (n : Nat) (e : Expr) (fs : List Frame) : Prop where
  sound : Sound outer fs
  nesting_le : e.nesting + (outer + nestingOf fs) ≤ maxNesting
  tokens_eq : tokensOf fs ++ e.tokens = ts
  operators_eq : operatorsOf fs + e.operatorCount = n

variable {outer n : Nat} {ts : List Token} {e : Expr} {fs : List Frame}

/-- Applying the signs in front of an operand changes neither its tokens nor its place, and makes it
an operand to which no sign is left to apply. -/
theorem Holds.applySigns (h : Holds outer ts n e fs) (hfits : e.Fits 5) :
    Holds outer ts n (applySigns e fs).1 (applySigns e fs).2 ∧ (Frame.applySigns e fs).1.Fits 5 ∧
      ∀ s gs, (Frame.applySigns e fs).2 ≠ .sign s :: gs := by
  induction fs generalizing e with
  | nil => exact ⟨h, hfits, fun s gs => List.cons_ne_nil _ _ ∘ Eq.symm⟩
  | cons f fs ih =>
    cases f with
    | sign s =>
      -- The sign moves from the open constructs to the operand.
      refine ih ⟨h.sound, ?_, ?_, ?_⟩ hfits
      · have hle := h.nesting_le
        rw [nestingOf] at hle
        simp only [depth] at hle
        simp only [Expr.nesting]
        omega
      · rw [← h.tokens_eq, tokensOf, Frame.tokens, Expr.tokens, List.append_assoc,
          List.singleton_append]
      · rw [← h.operators_eq, operatorsOf, Frame.operatorCount, Expr.operatorCount,
          Nat.zero_add]
    | _ => exact ⟨h, hfits, by simp [Frame.applySigns]⟩

/-- Making an operand the right side of the operators in front of it, from a level on, changes
neither the tokens nor the place of what comes out. -/
theorem Holds.applyOperators (h : Holds outer ts n e fs) {m : Nat} (hplace : e.Fits (level fs))
    (hlevel : e.Fits m) (hsign : ∀ s gs, fs ≠ .sign s :: gs) :
    Holds outer ts n (applyOperators m e fs).1 (applyOperators m e fs).2 ∧
      (Frame.applyOperators m e fs).1.Fits (level (Frame.applyOperators m e fs).2) ∧
      (Frame.applyOperators m e fs).1.Fits m ∧
      level (Frame.applyOperators m e fs).2 ≤ max m 1 := by
  induction fs generalizing e with
  | nil => exact ⟨h, hplace, hlevel, Nat.le_max_right m 1⟩
  | cons f fs ih =>
    cases f with
    | sign s => exact absurd rfl (hsign s fs)
    | operator left o =>
      unfold Frame.applyOperators
      split
      · rename_i hle
        obtain ⟨hsound, hlevelLeft, hleft, hnesting⟩ := h.sound
        -- The operator with both operands is an operand on the level of the operator.
        refine ih ⟨hsound, ?_, ?_, ?_⟩ ⟨hlevelLeft, hleft, hplace⟩ ⟨hle, hleft, hplace⟩ ?_
        · have hright := h.nesting_le
          rw [nestingOf] at hright
          simp only [depth, Nat.zero_add] at hright
          simp only [Expr.nesting]
          omega
        · rw [← h.tokens_eq, tokensOf, Frame.tokens, Expr.tokens, List.append_assoc,
            List.append_assoc, List.singleton_append]
        · rw [← h.operators_eq, operatorsOf, Frame.operatorCount, Expr.operatorCount]
          omega
        -- Only an operand of the tightest level can stand behind a sign.
        · rintro s gs rfl
          have hfour := o.precedence_le_four
          simp only [level] at hlevelLeft
          omega
      · rename_i hlt
        refine ⟨h, hplace, hlevel, ?_⟩
        simp only [level]
        omega
    | _ => exact ⟨h, hplace, hlevel, Nat.le_max_right m 1⟩

end Frame

/-- The tokens of the operand that was just read, if there is one. -/
def Awaited.tokens : Awaited → List Token
  | operand | argument => []
  | continuation e => e.tokens

/-- The binary operators of the operand that was just read, if there is one. -/
def Awaited.operatorCount : Awaited → Nat
  | operand | argument => 0
  | continuation e => e.operatorCount

namespace Progress

/-- What a formula read so far holds after the tokens `ts`, when `start` binary operators were
counted before them. -/
structure Invariant (start : Nat) (ts : List Token) (p : Progress) : Prop where
  sound : Frame.Sound p.outer p.frames
  nesting_le : p.nesting ≤ maxNesting
  operators_le : p.operators ≤ maxOperators
  tokens_eq : Frame.tokensOf p.frames ++ p.awaited.tokens = ts
  operators_eq : start + (Frame.operatorsOf p.frames + p.awaited.operatorCount) = p.operators
  argument : p.awaited = .argument → ∃ f fs, p.frames = .call f [] :: fs
  operand : ∀ e, p.awaited = .continuation e →
    e.Fits 5 ∧ e.nesting + p.nesting ≤ maxNesting

variable {start : Nat} {ts : List Token} {p q : Progress}

theorem Invariant.init {outer : Nat} (houter : outer ≤ maxNesting) (hstart : start ≤ maxOperators) :
    Invariant start [] ⟨[], .operand, outer, start⟩ where
  sound := trivial
  nesting_le := houter
  operators_le := hstart
  tokens_eq := rfl
  operators_eq := rfl
  argument h := absurd h (by simp)
  operand e h := absurd h (by simp)

theorem Invariant.holds {e : Expr} (h : Invariant start ts p) (hp : p.awaited = .continuation e) :
    Frame.Holds p.outer ts (p.operators - start) e p.frames := by
  refine ⟨h.sound, (h.operand e hp).2, ?_, ?_⟩
  · rw [← h.tokens_eq, hp, Awaited.tokens]
  · have hoperators := h.operators_eq
    rw [hp, Awaited.operatorCount] at hoperators
    omega

theorem Invariant.of_holds {e : Expr} {n : Nat} (hoperators : start + n = p.operators)
    (hle : p.operators ≤ maxOperators) (hp : p.awaited = .continuation e)
    (h : Frame.Holds p.outer ts n e p.frames) (hfits : e.Fits 5) : Invariant start ts p where
  sound := h.sound
  nesting_le := Nat.le_trans (Nat.le_add_left _ _) h.nesting_le
  operators_le := hle
  tokens_eq := by rw [hp, Awaited.tokens, h.tokens_eq]
  operators_eq := by rw [hp, Awaited.operatorCount, h.operators_eq, hoperators]
  argument harg := absurd (hp.symm.trans harg) (by simp)
  operand d hd := by
    cases hp.symm.trans hd
    exact ⟨hfits, h.nesting_le⟩

/-- No sign is left to apply to the operand that was just read. -/
def Settled (p : Progress) : Prop :=
  ∀ e, p.awaited = .continuation e → ∀ s gs, p.frames ≠ .sign s :: gs

theorem Invariant.applySigns (h : Invariant start ts p) (t : Token) :
    Invariant start ts (p.applySigns t) ∧ (t ≠ .leftParen → (p.applySigns t).Settled) := by
  cases hp : p.awaited with
  | operand | argument =>
    rw [applySigns_of_awaitsOperand (by simp [AwaitsOperand, hp])]
    exact ⟨h, fun _ e he => absurd (hp.symm.trans he) (by simp)⟩
  | continuation e =>
    -- A name in front of a parenthesis is a call, and the signs wait for the whole of it.
    by_cases hcall : t = .leftParen ∧ ∃ f, e = .name f
    · obtain ⟨rfl, f, rfl⟩ := hcall
      rw [applySigns_name hp]
      exact ⟨h, fun hne => absurd rfl hne⟩
    · obtain ⟨hholds, hfits, hsettled⟩ := (h.holds hp).applySigns (h.operand e hp).1
      have hle := h.operators_eq
      rw [applySigns_of_continuation hp fun ht f hf => hcall ⟨ht, f, hf⟩]
      refine ⟨.of_holds ?_ h.operators_le rfl hholds hfits, fun _ d _ => hsettled⟩
      dsimp only
      omega

theorem Invariant.tokensOf_eq (h : Invariant start ts p) (hp : p.AwaitsOperand) :
    Frame.tokensOf p.frames = ts ∧ start + Frame.operatorsOf p.frames = p.operators := by
  have htokens := h.tokens_eq
  have hoperators := h.operators_eq
  rcases hp with hp | hp
  · rw [hp, Awaited.tokens, List.append_nil] at htokens
    rw [hp, Awaited.operatorCount, Nat.add_zero] at hoperators
    exact ⟨htokens, hoperators⟩
  · rw [hp, Awaited.tokens, List.append_nil] at htokens
    rw [hp, Awaited.operatorCount, Nat.add_zero] at hoperators
    exact ⟨htokens, hoperators⟩

theorem Invariant.leaf {e : Expr} {t : Token} (h : Invariant start ts p) (hp : p.AwaitsOperand)
    (htokens : e.tokens = [t]) (hcount : e.operatorCount = 0) (hnesting : e.nesting = 0)
    (hfits : e.Fits 5) :
    Invariant start (ts ++ [t]) { p with awaited := .continuation e } := by
  obtain ⟨hts, hoperators⟩ := h.tokensOf_eq hp
  refine .of_holds hoperators h.operators_le rfl ⟨h.sound, ?_, ?_, ?_⟩ hfits
  · rw [hnesting, Nat.zero_add]
    exact h.nesting_le
  · rw [hts, htokens]
  · rw [hcount, Nat.add_zero]

theorem Invariant.opened {outer operators : Nat} {fs : List Frame} {awaited : Awaited}
    (hsound : Frame.Sound outer fs) (hnesting : outer + Frame.nestingOf fs ≤ maxNesting)
    (hle : operators ≤ maxOperators) (htokens : Frame.tokensOf fs = ts)
    (hcount : start + Frame.operatorsOf fs = operators)
    (hawaited : awaited = .operand ∨
      awaited = .argument ∧ ∃ f gs, fs = .call f [] :: gs) :
    Invariant start ts ⟨fs, awaited, outer, operators⟩ := by
  rcases hawaited with rfl | ⟨rfl, hcall⟩
  · exact ⟨hsound, hnesting, hle, (List.append_nil _).trans htokens, hcount,
      fun harg => absurd harg (by simp), fun e he => absurd he (by simp)⟩
  · exact ⟨hsound, hnesting, hle, (List.append_nil _).trans htokens, hcount, fun _ => hcall,
      fun e he => absurd he (by simp)⟩

theorem Invariant.enter {f : Frame} {t : Token} (h : Invariant start ts p) (hp : p.AwaitsOperand)
    (hlt : p.nesting < maxNesting) (htokens : f.tokens = [t]) (hcount : f.operatorCount = 0)
    (hdepth : f.depth = 1) (hsound : Frame.Sound p.outer (f :: p.frames)) :
    Invariant start (ts ++ [t]) { p with frames := f :: p.frames, awaited := .operand } := by
  obtain ⟨hts, hoperators⟩ := h.tokensOf_eq hp
  refine .opened hsound ?_ h.operators_le ?_ ?_ (Or.inl rfl)
  · rw [Frame.nestingOf, hdepth]
    rw [nesting] at hlt
    omega
  · rw [Frame.tokensOf, hts, htokens]
  · rw [Frame.operatorsOf, hcount, Nat.zero_add, hoperators]

/-- What the operand that was just read comes to when it ends at an operator or a construct. -/
theorem Invariant.reduce {e d : Expr} {fs : List Frame} {m : Nat} (h : Invariant start ts p)
    (hsettled : p.Settled) (hp : p.awaited = .continuation e) (hm : m ≤ 5)
    (hfs : Frame.applyOperators m e p.frames = (d, fs)) :
    Frame.Holds p.outer ts (p.operators - start) d fs ∧ d.Fits (Frame.level fs) ∧ d.Fits m ∧
      Frame.level fs ≤ max m 1 := by
  have hfits := (h.operand e hp).1
  have hreduced := (h.holds hp).applyOperators (m := m) (hfits.mono (Frame.level_le_five p.frames))
    (hfits.mono hm) (hsettled e hp)
  rwa [hfs] at hreduced

theorem Invariant.start_le (h : Invariant start ts p) : start ≤ p.operators := by
  rw [← h.operators_eq]
  exact Nat.le_add_right _ _

theorem Invariant.closed {e : Expr} {fs : List Frame} (h : Invariant start ts p)
    {us : List Token} (hholds : Frame.Holds p.outer us (p.operators - start) e fs)
    (hfits : e.Fits 5) :
    Invariant start us { p with frames := fs, awaited := .continuation e } := by
  refine .of_holds ?_ h.operators_le rfl hholds hfits
  have hstart := h.start_le
  dsimp only
  omega

/-! ## One token -/

theorem Invariant.openCall {f : String} (h : Invariant start ts p)
    (hp : p.awaited = .continuation (.name f)) (hlt : p.nesting < maxNesting) :
    Invariant start (ts ++ [.leftParen])
      { p with frames := .call f [] :: p.frames, awaited := .argument } := by
  have hholds := h.holds hp
  have hstart := h.start_le
  refine .opened ⟨h.sound, by simp, by simp⟩ ?_ h.operators_le ?_ ?_
    (Or.inr ⟨rfl, f, p.frames, rfl⟩)
  · rw [Frame.nestingOf, Frame.depth]
    rw [nesting] at hlt
    omega
  -- The name was an operand, and now it belongs to the call.
  · rw [← hholds.tokens_eq, Frame.tokensOf, Expr.tokens, Frame.tokens, List.reverse_nil,
      List.flatMap_nil, List.append_assoc, List.singleton_append]
  · have hoperators := hholds.operators_eq
    rw [Expr.operatorCount] at hoperators
    rw [Frame.operatorsOf, Frame.operatorCount, Expr.operatorCountAll]
    omega

theorem Invariant.operator {o : BinaryOp} {e left : Expr} {fs : List Frame}
    (h : Invariant start ts p) (hsettled : p.Settled) (hp : p.awaited = .continuation e)
    (hfs : Frame.applyOperators o.precedence e p.frames = (left, fs))
    (hlt : p.operators < maxOperators) :
    Invariant start (ts ++ [.op o]) { p with
      frames := .operator left o :: fs, awaited := .operand, operators := p.operators + 1 } := by
  have hstart := h.start_le
  have hfive : o.precedence ≤ 5 := Nat.le_succ_of_le o.precedence_le_four
  obtain ⟨hholds, -, hfits, hlevel⟩ := h.reduce hsettled hp hfive hfs
  -- What is left in front binds more loosely, so the operator stands where the grammar has it.
  rw [Nat.max_eq_left o.one_le_precedence] at hlevel
  refine .opened ⟨hholds.sound, hlevel, hfits, hholds.nesting_le⟩ ?_ hlt ?_ ?_ (Or.inl rfl)
  · have hnesting := hholds.nesting_le
    rw [Frame.nestingOf, Frame.depth]
    omega
  · rw [← hholds.tokens_eq, Frame.tokensOf, Frame.tokens, List.append_assoc]
  · have hoperators := hholds.operators_eq
    rw [Frame.operatorsOf, Frame.operatorCount]
    omega

theorem Invariant.closeParen {e inner : Expr} {fs : List Frame} (h : Invariant start ts p)
    (hsettled : p.Settled) (hp : p.awaited = .continuation e)
    (hfs : Frame.applyOperators 0 e p.frames = (inner, .paren :: fs)) :
    Invariant start (ts ++ [.rightParen])
      { p with frames := fs, awaited := .continuation (.paren inner) } := by
  obtain ⟨hholds, hfits, -⟩ := h.reduce hsettled hp (Nat.zero_le 5) hfs
  refine h.closed ⟨hholds.sound, ?_, ?_, ?_⟩ hfits
  -- The level that the parenthesis added now belongs to the expression.
  · have hnesting := hholds.nesting_le
    rw [Frame.nestingOf, Frame.depth] at hnesting
    rw [Expr.nesting]
    omega
  · rw [← hholds.tokens_eq, Frame.tokensOf, Frame.tokens, Expr.tokens]
    simp only [List.append_assoc, List.cons_append, List.nil_append]
  · rw [← hholds.operators_eq, Frame.operatorsOf, Frame.operatorCount, Expr.operatorCount,
      Nat.zero_add]

theorem Invariant.closeCall {e last : Expr} {f : String} {args : List Expr} {fs : List Frame}
    (h : Invariant start ts p) (hsettled : p.Settled) (hp : p.awaited = .continuation e)
    (hfs : Frame.applyOperators 0 e p.frames = (last, .call f args :: fs)) :
    Invariant start (ts ++ [.rightParen])
      { p with frames := fs, awaited := .continuation (.call f (last :: args).reverse) } := by
  obtain ⟨hholds, hfits, -⟩ := h.reduce hsettled hp (Nat.zero_le 5) hfs
  obtain ⟨hsound, hargs, hnestings⟩ := hholds.sound
  have hlast := hholds.nesting_le
  rw [Frame.nestingOf, Frame.depth] at hlast
  refine h.closed ⟨hsound, ?_, ?_, ?_⟩ ?_
  · have hall : Expr.nestingAll (last :: args).reverse ≤
        maxNesting - (p.outer + Frame.nestingOf fs + 1) := by
      rw [Expr.nestingAll_le_iff]
      intro d hd
      rcases List.mem_cons.mp (List.mem_reverse.mp hd) with rfl | hd
      · omega
      · have hle := hnestings d hd
        omega
    rw [Expr.nesting]
    omega
  · rw [← hholds.tokens_eq, Frame.tokensOf, Frame.tokens, Expr.tokens, List.reverse_cons,
      Expr.argTokens_append_singleton]
    simp only [List.append_assoc, List.cons_append]
  · rw [← hholds.operators_eq, Frame.operatorsOf, Frame.operatorCount, Expr.operatorCount,
      Expr.operatorCountAll_reverse, Expr.operatorCountAll]
    omega
  · show Expr.FitAll (last :: args).reverse
    rw [Expr.fitAll_iff]
    intro d hd
    rcases List.mem_cons.mp (List.mem_reverse.mp hd) with rfl | hd
    · exact hfits
    · exact hargs d hd

theorem Invariant.closeEmpty {f : String} {args : List Expr} {fs : List Frame}
    (h : Invariant start ts p) (hp : p.awaited = .argument) (hfs : p.frames = .call f args :: fs) :
    Invariant start (ts ++ [.rightParen])
      { p with frames := fs, awaited := .continuation (.call f []) } := by
  -- The parenthesis was opened just before, so there is no argument yet.
  obtain ⟨g, gs, hframes⟩ := h.argument hp
  obtain ⟨hcall, rfl⟩ := List.cons.inj (hfs.symm.trans hframes)
  cases hcall
  obtain ⟨htokens, hoperators⟩ := h.tokensOf_eq (Or.inr hp)
  have hsound := h.sound
  have hnesting := h.nesting_le
  have hstart := h.start_le
  rw [hfs] at hsound
  refine h.closed ⟨hsound.1, ?_, ?_, ?_⟩ trivial
  · rw [nesting, hfs, Frame.nestingOf, Frame.depth] at hnesting
    rw [Expr.nesting, Expr.nestingAll]
    omega
  · rw [← htokens, hfs, Frame.tokensOf, Frame.tokens, Expr.tokens, Expr.argTokens,
      List.append_assoc]
    rfl
  · rw [hfs, Frame.operatorsOf, Frame.operatorCount] at hoperators
    rw [Expr.operatorCount]
    omega

theorem Invariant.comma {e last : Expr} {f : String} {args : List Expr} {fs : List Frame}
    (h : Invariant start ts p) (hsettled : p.Settled) (hp : p.awaited = .continuation e)
    (hfs : Frame.applyOperators 0 e p.frames = (last, .call f args :: fs)) :
    Invariant start (ts ++ [.comma])
      { p with frames := .call f (last :: args) :: fs, awaited := .operand } := by
  have hstart := h.start_le
  obtain ⟨hholds, hfits, -⟩ := h.reduce hsettled hp (Nat.zero_le 5) hfs
  obtain ⟨hsound, hargs, hnestings⟩ := hholds.sound
  have hlast := hholds.nesting_le
  rw [Frame.nestingOf, Frame.depth] at hlast
  have hlastFits : last.nesting + (p.outer + Frame.nestingOf fs + 1) ≤ maxNesting := by omega
  refine .opened ⟨hsound, List.forall_mem_cons.mpr ⟨hfits, hargs⟩,
    List.forall_mem_cons.mpr ⟨hlastFits, hnestings⟩⟩ ?_ h.operators_le ?_ ?_ (Or.inl rfl)
  · rw [Frame.nestingOf, Frame.depth]
    omega
  · rw [← hholds.tokens_eq, Frame.tokensOf, Frame.tokensOf, Frame.tokens, Frame.tokens,
      List.reverse_cons, List.flatMap_append, List.flatMap_singleton]
    simp only [List.append_assoc, List.cons_append]
  · have hoperators := hholds.operators_eq
    rw [Frame.operatorsOf, Frame.operatorCount] at hoperators
    rw [Frame.operatorsOf, Frame.operatorCount, Expr.operatorCountAll]
    omega

theorem Invariant.move {t : Token} (h : Invariant start ts p)
    (hsettled : t ≠ .leftParen → p.Settled) (hmove : Move p t q) :
    Invariant start (ts ++ [t]) q := by
  cases hmove with
  | number text hp => exact h.leaf hp rfl rfl rfl trivial
  | string contents hp => exact h.leaf hp rfl rfl rfl trivial
  | name text hp => exact h.leaf hp rfl rfl rfl trivial
  | sign s hp hlt => exact h.enter hp hlt rfl rfl rfl h.sound
  | openParen hp hlt => exact h.enter hp hlt rfl rfl rfl h.sound
  | openCall f hp hlt => exact h.openCall hp hlt
  | operator o hp hfs hlt => exact h.operator (hsettled (by simp)) hp hfs hlt
  | closeParen hp hfs => exact h.closeParen (hsettled (by simp)) hp hfs
  | closeCall hp hfs => exact h.closeCall (hsettled (by simp)) hp hfs
  | closeEmpty hp hfs => exact h.closeEmpty hp hfs
  | comma hp hfs => exact h.comma (hsettled (by simp)) hp hfs

/-! ## A whole formula -/

/-- Every token that is taken is held. -/
theorem Invariant.feed {us : List Token} (h : Invariant start ts p) (hq : p.feed us = .ok q) :
    Invariant start (ts ++ us) q := by
  induction us generalizing ts p with
  | nil =>
    cases hq
    rwa [List.append_nil]
  | cons t us ih =>
    obtain ⟨r, htake, hfeed⟩ := exists_of_feed_cons hq
    obtain ⟨happlied, hsettled⟩ := h.applySigns t
    have hr := happlied.move hsettled (move_of_step htake)
    rw [List.append_cons]
    exact ih hr hfeed

/-- An expression that is complete has all the tokens taken, and the grammar has it. -/
theorem Invariant.complete {e : Expr} (h : Invariant start ts p) (he : p.complete = .ok e) :
    e.Fits 1 ∧ e.tokens = ts ∧ e.nesting ≤ maxNesting ∧ start + e.operatorCount ≤ maxOperators := by
  obtain ⟨happlied, hsettled⟩ := h.applySigns .ending
  have hsettled := hsettled (by simp)
  unfold Progress.complete finish at he
  generalize p.applySigns .ending = r at he happlied hsettled
  cases hr : r.awaited with
  | operand | argument =>
    rw [hr] at he
    exact absurd he (by simp)
  | continuation d =>
    rw [hr] at he
    dsimp only at he
    generalize hfs : Frame.applyOperators 0 d r.frames = reduced at he
    obtain ⟨whole, fs⟩ := reduced
    cases fs with
    | cons f fs => exact absurd he (by simp)
    | nil =>
      cases he
      obtain ⟨hholds, hfits, -⟩ := happlied.reduce hsettled hr (Nat.zero_le 5) hfs
      have hnesting := hholds.nesting_le
      have hoperators := hholds.operators_eq
      have hle := happlied.operators_le
      have hstart := happlied.start_le
      refine ⟨hfits, hholds.tokens_eq, by omega, ?_⟩
      rw [Frame.operatorsOf] at hoperators
      omega

end Progress

/-- The expressions of formulas: those of the grammar that are within the limits. -/
structure Expr.IsFormula (e : Expr) : Prop where
  fits : e.Fits 1
  nesting_le : e.nesting ≤ maxNesting
  operatorCount_le : e.operatorCount ≤ maxOperators

/-- What a fresh reader reads has the tokens it was read from. -/
theorem Reader.sound {ts : List Token.Placed} {e : Expr}
    (h : (Reader.ofTokens ts).read.1 = .ok e) :
    e.IsFormula ∧ e.tokens = Token.beforeEnding ts := by
  rw [read_ofTokens] at h
  cases hfeed : (Progress.mk [] .operand 0 0).feed (Token.beforeEnding ts) with
  | error cause =>
    rw [hfeed] at h
    exact absurd h (by simp [Except.bind])
  | ok q =>
    rw [hfeed] at h
    have hinit := Progress.Invariant.init (Nat.zero_le maxNesting) (Nat.zero_le maxOperators)
    obtain ⟨hfits, htokens, hnesting, hoperators⟩ := (hinit.feed hfeed).complete h
    rw [Nat.zero_add] at hoperators
    exact ⟨⟨hfits, hnesting, hoperators⟩, htokens⟩

end FormulaTree
