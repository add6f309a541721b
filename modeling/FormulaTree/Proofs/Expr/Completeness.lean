import FormulaTree.Proofs.Expr.Roles

/-!
# A reader takes every expression of the grammar

The tokens of an expression take a reader from where an operand is awaited to where that expression
was read. What was read is put together only when the next token shows where it ends, so `Reads`
says what it comes to then, on every level that the expression is on.
-/

namespace FormulaTree

namespace Frame

/-- What the operand `e` comes to when it ends at a token of a level. -/
def settle (level : Nat) (e : Expr) (fs : List Frame) : Expr × List Frame :=
  applyOperators level (applySigns e fs).1 (applySigns e fs).2

theorem applySigns_of_level {e : Expr} {fs : List Frame} (h : level fs ≤ 4) :
    applySigns e fs = (e, fs) := by
  cases fs with
  | nil => rfl
  | cons f fs =>
    cases f with
    | sign s => exact absurd h (by decide : ¬5 ≤ 4)
    | _ => rfl

theorem settle_of_level {m : Nat} {e : Expr} {fs : List Frame} (h : level fs ≤ m) (hm : m ≤ 4) :
    settle m e fs = (e, fs) := by
  unfold settle
  rw [applySigns_of_level (Nat.le_trans h hm)]
  cases fs with
  | nil => rfl
  | cons f fs =>
    cases f with
    | operator left o =>
      have hlt : ¬m ≤ o.precedence := Nat.not_le_of_lt h
      exact if_neg hlt
    | _ => rfl

theorem settle_sign (m : Nat) (s : Sign) (e : Expr) (fs : List Frame) :
    settle m e (.sign s :: fs) = settle m (.unary s e) fs := rfl

@[simp] theorem settle_paren (m : Nat) (e : Expr) (fs : List Frame) :
    settle m e (.paren :: fs) = (e, .paren :: fs) := rfl

@[simp] theorem settle_call (m : Nat) (e : Expr) (f : String) (args : List Expr) (fs : List Frame) :
    settle m e (.call f args :: fs) = (e, .call f args :: fs) := rfl

theorem settle_operator {m : Nat} {left right : Expr} {o : BinaryOp} {fs : List Frame}
    (hm : m ≤ o.precedence) (h : level fs ≤ o.precedence) :
    settle m right (.operator left o :: fs) = settle m (.binary left o right) fs := by
  unfold settle
  rw [applySigns_of_level (e := .binary left o right) (Nat.le_trans h o.precedence_le_four)]
  exact if_pos hm

end Frame

namespace Progress

/-- Behind `p`, where an operand is awaited, the expression `e` of a level was read up to `q`. -/
structure Reads (p : Progress) (level : Nat) (e : Expr) (q : Progress) : Prop where
  outer_eq : q.outer = p.outer
  operators_eq : q.operators = p.operators + e.operatorCount
  settles : ∃ d, q.awaited = .continuation d ∧
    ∀ m ≤ level, Frame.settle m d q.frames = Frame.settle m e p.frames

variable {p q : Progress} {e : Expr} {level m : Nat} {t : Token}

/-- At a token that opens no call, what was read is put together. -/
theorem Reads.applySigns (h : Reads p level e q) (hm : m ≤ level) (ht : t ≠ .leftParen) :
    ∃ d, (q.applySigns t).awaited = .continuation d ∧
      Frame.applyOperators m d (q.applySigns t).frames = Frame.settle m e p.frames ∧
      (q.applySigns t).outer = p.outer ∧
      (q.applySigns t).operators = p.operators + e.operatorCount := by
  obtain ⟨d, hd, hsettles⟩ := h.settles
  rw [applySigns_of_continuation hd fun heq => absurd heq ht]
  exact ⟨(Frame.applySigns d q.frames).1, rfl, hsettles m hm, h.outer_eq, h.operators_eq⟩

theorem Reads.leads_operator {o : BinaryOp} (h : Reads p o.precedence e q)
    (hlevel : Frame.level p.frames ≤ o.precedence) :
    Leads q (.op o) (.operator (p.operators + e.operatorCount + 1)) { p with
      frames := .operator e o :: p.frames, awaited := .operand,
      operators := p.operators + e.operatorCount + 1 } := by
  obtain ⟨d, hd, hfs, houter, hoperators⟩ := h.applySigns (t := .op o) (Nat.le_refl _) (by simp)
  rw [Frame.settle_of_level hlevel o.precedence_le_four] at hfs
  rw [← h.operators_eq]
  apply Leads.operator
  unfold take
  simp only [step, hd, extend, operate, hfs, houter, hoperators, h.operators_eq]

theorem Reads.take_closeParen {fs : List Frame} (h : Reads p level e q)
    (hp : p.frames = .paren :: fs) :
    q.take .rightParen = .ok { p with
      frames := fs, awaited := .continuation (.paren e),
      operators := p.operators + e.operatorCount } := by
  obtain ⟨d, hd, hfs, houter, hoperators⟩ :=
    h.applySigns (t := .rightParen) (Nat.zero_le level) (by simp)
  rw [hp, Frame.settle_paren] at hfs
  unfold take
  rw [step_of_move (.closeParen hd hfs), houter, hoperators]

theorem Reads.take_closeCall {f : String} {args : List Expr} {fs : List Frame}
    (h : Reads p level e q) (hp : p.frames = .call f args :: fs) :
    q.take .rightParen = .ok { p with
      frames := fs, awaited := .continuation (.call f (e :: args).reverse),
      operators := p.operators + e.operatorCount } := by
  obtain ⟨d, hd, hfs, houter, hoperators⟩ :=
    h.applySigns (t := .rightParen) (Nat.zero_le level) (by simp)
  rw [hp, Frame.settle_call] at hfs
  unfold take
  rw [step_of_move (.closeCall hd hfs), houter, hoperators]

theorem Reads.take_comma {f : String} {args : List Expr} {fs : List Frame}
    (h : Reads p level e q) (hp : p.frames = .call f args :: fs) :
    q.take .comma = .ok { p with
      frames := .call f (e :: args) :: fs, awaited := .operand,
      operators := p.operators + e.operatorCount } := by
  obtain ⟨d, hd, hfs, houter, hoperators⟩ :=
    h.applySigns (t := .comma) (Nat.zero_le level) (by simp)
  rw [hp, Frame.settle_call] at hfs
  unfold take
  rw [step_of_move (.comma hd hfs), houter, hoperators]

theorem Reads.mono (h : Reads p level e q) (hm : m ≤ level) : Reads p m e q := by
  obtain ⟨d, hd, hsettles⟩ := h.settles
  exact ⟨h.outer_eq, h.operators_eq, d, hd, fun n hn => hsettles n (Nat.le_trans hn hm)⟩

/-- The sign is put in front of the operand when the operand is put together. -/
theorem Reads.unary {s : Sign}
    (h : Reads { p with frames := .sign s :: p.frames, awaited := .operand } 5 e q) :
    Reads p 5 (.unary s e) q := by
  obtain ⟨d, hd, hsettles⟩ := h.settles
  refine ⟨h.outer_eq, h.operators_eq, d, hd, fun m hm => ?_⟩
  rw [hsettles m hm, Frame.settle_sign]

theorem Reads.binary {left right : Expr} {o : BinaryOp}
    (hlevel : Frame.level p.frames ≤ o.precedence)
    (h : Reads { p with
        frames := .operator left o :: p.frames, awaited := .operand,
        operators := p.operators + left.operatorCount + 1 } (o.precedence + 1) right q) :
    Reads p o.precedence (.binary left o right) q := by
  obtain ⟨d, hd, hsettles⟩ := h.settles
  refine ⟨h.outer_eq, ?_, d, hd, fun m hm => ?_⟩
  · rw [h.operators_eq, Expr.operatorCount]
    dsimp only
    omega
  · rw [hsettles m (Nat.le_succ_of_le hm), Frame.settle_operator hm hlevel]

theorem nesting_push (p : Progress) (f : Frame) (awaited : Awaited) (operators : Nat) :
    (Progress.mk (f :: p.frames) awaited p.outer operators).nesting = p.nesting + f.depth := by
  simp only [nesting, Frame.nestingOf]
  omega

theorem take_of_move (hp : p.AwaitsOperand) (hmove : Move p t q) : p.take t = .ok q := by
  unfold take
  rw [applySigns_of_awaitsOperand hp]
  exact step_of_move hmove

/-- Whether a reader can be led over the tokens of an expression wherever the grammar allows it. -/
def Walks (e : Expr) : Prop :=
  ∀ (p : Progress) (level : Nat), p.AwaitsOperand → e.Fits level → level ≤ 5 →
    Frame.level p.frames ≤ level →
    ∃ q, Walk p (e.roles p.nesting p.operators) q ∧ Reads p level e q

/-- Whether a reader can be led over further arguments behind an argument of a call, up to its last
token. -/
def WalksFurther (es : List Expr) : Prop :=
  ∀ (p q : Progress) (f : String) (args : List Expr) (fs : List Frame) (e : Expr),
    p.frames = .call f args :: fs → Reads p 1 e q → Expr.FitAll es →
    Walk q (Expr.furtherRoles p.nesting (p.operators + e.operatorCount) es ++
      [(.rightParen, .plain)]) { p with
        frames := fs, awaited := .continuation (.call f (args.reverse ++ e :: es)),
        operators := p.operators + e.operatorCount + Expr.operatorCountAll es }

theorem walks_leaf {e : Expr} {t : Token} (hroles : ∀ level done, e.roles level done = [(t, .plain)])
    (hcount : e.operatorCount = 0)
    (hmove : ∀ p : Progress, p.AwaitsOperand → Move p t { p with awaited := .continuation e }) :
    Walks e := by
  intro p level hp _ _ _
  refine ⟨{ p with awaited := .continuation e }, ?_, rfl, ?_, e, rfl, fun m _ => rfl⟩
  · rw [hroles]
    exact .cons (.plain (take_of_move hp (hmove p hp))) (.nil _)
  · rw [hcount, Nat.add_zero]

theorem walks_unary (s : Sign) {operand : Expr} (ih : Walks operand) :
    Walks (.unary s operand) := by
  intro p level hp hfits hfive hlevel
  obtain ⟨q, hwalk, hreads⟩ := ih { p with frames := .sign s :: p.frames, awaited := .operand } 5
    (Or.inl rfl) hfits (Nat.le_refl 5) (Nat.le_refl 5)
  rw [nesting_push] at hwalk
  exact ⟨q, .cons (leads_sign s hp) hwalk, hreads.unary.mono hfive⟩

theorem walks_binary (o : BinaryOp) {left right : Expr} (ihLeft : Walks left)
    (ihRight : Walks right) : Walks (.binary left o right) := by
  intro p level hp hfits hfive hlevel
  obtain ⟨hle, hleft, hright⟩ := hfits
  have hfour := o.precedence_le_four
  have hlevelLeft := Nat.le_trans hlevel hle
  obtain ⟨q, hwalk, hreads⟩ := ihLeft p o.precedence hp hleft (by omega) hlevelLeft
  -- The operator ends the left operand, and the right one is read on the next level.
  obtain ⟨r, hwalkRight, hreadsRight⟩ := ihRight { p with
      frames := .operator left o :: p.frames, awaited := .operand,
      operators := p.operators + left.operatorCount + 1 } (o.precedence + 1)
    (Or.inl rfl) hright (by omega) (Nat.le_refl _)
  rw [nesting_push, Frame.depth, Nat.add_zero] at hwalkRight
  exact ⟨r, hwalk.append (.cons (hreads.leads_operator hlevelLeft) hwalkRight),
    (hreadsRight.binary hlevelLeft).mono hle⟩

theorem walks_paren {inner : Expr} (ih : Walks inner) : Walks (.paren inner) := by
  intro p level hp hfits hfive hlevel
  obtain ⟨q, hwalk, hreads⟩ := ih { p with frames := .paren :: p.frames, awaited := .operand } 1
    (Or.inl rfl) hfits (by decide) (Nat.le_refl 1)
  rw [nesting_push] at hwalk
  have hclosed := hwalk.concat (.plain (hreads.take_closeParen rfl))
  exact ⟨_, .cons (leads_openParen hp) hclosed, rfl, rfl, .paren inner, rfl, fun m _ => rfl⟩

/-- The name of a call and its parenthesis, in front of the arguments. -/
theorem walk_openCall {p q : Progress} {rs : List (Token × Role)} (f : String)
    (hp : p.AwaitsOperand)
    (h : Walk { p with frames := .call f [] :: p.frames, awaited := .argument } rs q) :
    Walk p ((.name f, .plain) :: (.leftParen, .opens (p.nesting + 1)) :: rs) q :=
  .cons (.plain (take_of_move hp (.name f hp))) (.cons (leads_openCall f rfl) h)

theorem walks_call_nil (f : String) : Walks (.call f []) := by
  intro p level hp _ _ _
  have hclosed := take_of_move (p := ⟨.call f [] :: p.frames, .argument, p.outer, p.operators⟩)
    (Or.inr rfl) (.closeEmpty rfl rfl)
  exact ⟨{ p with awaited := .continuation (.call f []) },
    walk_openCall f hp (.cons (.plain hclosed) (.nil _)), rfl, rfl, .call f [], rfl, fun m _ => rfl⟩

theorem walks_call_cons (f : String) {e : Expr} {es : List Expr} (ih : Walks e)
    (ihs : WalksFurther es) : Walks (.call f (e :: es)) := by
  intro p level hp hfits hfive hlevel
  obtain ⟨hfirst, hfurther⟩ := hfits
  obtain ⟨q, hwalk, hreads⟩ := ih
    { p with frames := .call f [] :: p.frames, awaited := .argument } 1
    (Or.inr rfl) hfirst (by decide) (Nat.le_refl 1)
  -- What follows the first argument, up to the closing parenthesis, is read behind it.
  have hrest := ihs _ q f [] p.frames e rfl hreads hfurther
  have hargs := hwalk.append hrest
  rw [nesting_push, ← List.append_assoc] at hargs
  refine ⟨_, walk_openCall f hp hargs, rfl, ?_, .call f (e :: es), rfl, fun m _ => rfl⟩
  rw [Expr.operatorCount, Expr.operatorCountAll]
  dsimp only
  omega

theorem walksFurther_nil : WalksFurther [] := by
  intro p q f args fs e hp hreads _
  refine .cons (.plain ?_) (.nil _)
  rw [hreads.take_closeCall hp, List.reverse_cons]
  rfl

theorem walksFurther_cons {d : Expr} {es : List Expr} (ih : Walks d)
    (ihs : WalksFurther es) : WalksFurther (d :: es) := by
  intro p q f args fs e hp hreads hfits
  obtain ⟨hfirst, hfurther⟩ := hfits
  have hsame : (Progress.mk (.call f (e :: args) :: fs) .operand p.outer
      (p.operators + e.operatorCount)).nesting = p.nesting := by
    simp only [nesting, hp, Frame.nestingOf, Frame.depth]
  obtain ⟨r, hwalk, hreadsNext⟩ := ih
    { p with
      frames := .call f (e :: args) :: fs, awaited := .operand,
      operators := p.operators + e.operatorCount } 1
    (Or.inl rfl) hfirst (by decide) (Nat.le_refl 1)
  have hrest := hwalk.append (ihs _ r f (e :: args) fs d rfl hreadsNext hfurther)
  rw [hsame] at hrest
  rw [Expr.furtherRoles, List.cons_append, List.append_assoc, Expr.operatorCountAll]
  refine .cons (.plain (hreads.take_comma hp)) ?_
  simpa only [List.reverse_cons, List.append_assoc, List.singleton_append, Nat.add_assoc] using hrest

mutual

theorem walks : (e : Expr) → Walks e
  | .number text => walks_leaf (fun _ _ => rfl) rfl fun _ hp => .number text hp
  | .string contents => walks_leaf (fun _ _ => rfl) rfl fun _ hp => .string contents hp
  | .name text => walks_leaf (fun _ _ => rfl) rfl fun _ hp => .name text hp
  | .unary s operand => walks_unary s (walks operand)
  | .binary left o right => walks_binary o (walks left) (walks right)
  | .paren inner => walks_paren (walks inner)
  | .call f [] => walks_call_nil f
  | .call f (e :: es) => walks_call_cons f (walks e) (walksFurther es)

theorem walksFurther : (es : List Expr) → WalksFurther es
  | [] => walksFurther_nil
  | e :: es => walksFurther_cons (walks e) (walksFurther es)

end

/-- The tokens of an expression are taken wherever the grammar and the limits allow it. -/
theorem accepts (e : Expr) (hp : p.AwaitsOperand) (hfits : e.Fits level) (hfive : level ≤ 5)
    (hlevel : Frame.level p.frames ≤ level) (hnesting : e.nesting + p.nesting ≤ maxNesting)
    (hoperators : p.operators + e.operatorCount ≤ maxOperators) :
    ∃ q, p.feed e.tokens = .ok q ∧ Reads p level e q := by
  obtain ⟨q, hwalk, hreads⟩ := walks e p level hp hfits hfive hlevel
  have hfeed := hwalk.feed_eq (e.isWithin_of_mem_roles hnesting hoperators)
  rw [Expr.map_fst_roles] at hfeed
  exact ⟨q, hfeed, hreads⟩

/-- An expression that is alone is complete at the end. -/
theorem Reads.complete (h : Reads p level e q) (hp : p.frames = []) : q.complete = .ok e := by
  obtain ⟨d, hd, hfs, -⟩ := h.applySigns (t := .ending) (Nat.zero_le level) (by simp)
  rw [hp] at hfs
  have hnil : Frame.settle 0 e [] = (e, []) := rfl
  rw [hnil] at hfs
  unfold Progress.complete finish
  simp only [hd, hfs]

end Progress

theorem Reader.complete {ts : List Token.Placed} {e : Expr} (h : e.IsFormula)
    (htokens : e.tokens = Token.beforeEnding ts) : (Reader.ofTokens ts).read.1 = .ok e := by
  obtain ⟨q, hfeed, hreads⟩ := Progress.accepts (p := ⟨[], .operand, 0, 0⟩) e (Or.inl rfl) h.fits
    (by decide) (Nat.le_refl 1) h.nesting_le ((Nat.zero_add _).symm ▸ h.operatorCount_le)
  rw [read_ofTokens, ← htokens, hfeed]
  exact hreads.complete rfl

/-- A reader accepts exactly the grammar, within the limits, and builds the only expression that its
tokens can stand for. -/
theorem Reader.read_eq_ok_iff (ts : List Token.Placed) :
    (∀ e, (Reader.ofTokens ts).read.1 = .ok e ↔
      e.IsFormula ∧ e.tokens = Token.beforeEnding ts) ∧
    ∀ d e : Expr, d.IsFormula → d.tokens = Token.beforeEnding ts →
      e.IsFormula → e.tokens = Token.beforeEnding ts → d = e := by
  refine ⟨fun e => ⟨Reader.sound, fun h => Reader.complete h.1 h.2⟩, ?_⟩
  intro d e hd hdTokens he heTokens
  have hread := (Reader.complete hd hdTokens).symm.trans (Reader.complete he heTokens)
  exact Except.ok.inj hread

/-- Two signs, a product on one level with a power, and an argument after an empty call. -/
example : (Reader.ofTokens ([.op .sub, .op .add, .name "A", .op .mul, .number "2", .op .pow,
    .name "F", .leftParen, .name "G", .leftParen, .rightParen, .comma, .string "", .rightParen,
    .ending].map fun t => ⟨t, .start⟩)).read.1 =
      .ok (.binary (.binary (.unary .minus (.unary .plus (.name "A"))) .mul (.number "2")) .pow
        (.call "F" [.call "G" [], .string ""])) := by
  rfl

end FormulaTree
