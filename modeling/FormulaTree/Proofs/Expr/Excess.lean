import FormulaTree.Proofs.FormulaError

/-!
# The token that exceeds a limit

A limit is exceeded by the first token that opens a level too many or is an operator too many. That
is a matter of the tokens up to it: in every expression of the grammar that starts with them it has
this role. It is not the token that is reported, for the reader has taken it when the limit is looked
at, and reports the one behind it.
-/

namespace FormulaTree

namespace Frame

/-! ## Completing open constructs -/

/-- The expression that a construct becomes with `e` as the operand that it awaits. -/
def plug (e : Expr) : Frame → Expr
  | sign s => .unary s e
  | operator left o => .binary left o e
  | paren => .paren e
  | call f args => .call f (args.reverse ++ [e])

/-- The expression that open constructs, innermost first, become with `e` as the innermost
operand. -/
def plugAll (e : Expr) : List Frame → Expr
  | [] => e
  | f :: fs => plugAll (f.plug e) fs

theorem exists_tokens_plug (e : Expr) (f : Frame) :
    ∃ more, (f.plug e).tokens = f.tokens ++ e.tokens ++ more := by
  cases f with
  | sign s => exact ⟨[], by simp [plug, Expr.tokens, tokens]⟩
  | operator left o => exact ⟨[], by simp [plug, Expr.tokens, tokens]⟩
  | paren => exact ⟨[.rightParen], by simp [plug, Expr.tokens, tokens]⟩
  | call f args =>
    exact ⟨[.rightParen], by simp [plug, Expr.tokens, tokens, Expr.argTokens_append_singleton]⟩

theorem exists_tokens_plugAll (e : Expr) (fs : List Frame) :
    ∃ more, (plugAll e fs).tokens = tokensOf fs ++ e.tokens ++ more := by
  induction fs generalizing e with
  | nil => exact ⟨[], (List.append_nil _).symm⟩
  | cons f fs ih =>
    obtain ⟨inside, hinside⟩ := exists_tokens_plug e f
    obtain ⟨outside, houtside⟩ := ih (f.plug e)
    refine ⟨inside ++ outside, ?_⟩
    rw [plugAll, houtside, hinside, tokensOf]
    simp only [List.append_assoc]

/-- The grammar has what sound constructs become with an operand on the level that they await. -/
theorem fits_plugAll {outer : Nat} {e : Expr} {fs : List Frame} (h : Sound outer fs)
    (he : e.Fits (level fs)) : (plugAll e fs).Fits 1 := by
  induction fs generalizing e with
  | nil => exact he
  | cons f fs ih =>
    cases f with
    | sign s => exact ih h he
    | operator left o =>
      obtain ⟨hsound, hlevel, hleft, -⟩ := h
      exact ih hsound ⟨hlevel, hleft, he⟩
    | paren => exact ih h he
    | call f args =>
      obtain ⟨hsound, hargs, -⟩ := h
      refine ih hsound (Expr.fitAll_iff.mpr fun d hd => ?_)
      rcases List.mem_append.mp hd with hd | hd
      · exact hargs d (List.mem_reverse.mp hd)
      · rw [List.mem_singleton.mp hd]
        exact he

end Frame

namespace Progress

variable {start : Nat} {ts : List Token} {p q : Progress} {t : Token} {cause : Expectation}

/-- Whether the tokens can be the start of an expression, with sound constructs open at the end. -/
def Opens (ts : List Token) : Prop :=
  ∃ outer fs, Frame.Sound outer fs ∧ Frame.tokensOf fs = ts

theorem Opens.exists_expr (h : Opens ts) : ∃ e more, Expr.Fits 1 e ∧ e.tokens = ts ++ more := by
  obtain ⟨outer, fs, hsound, htokens⟩ := h
  obtain ⟨more, hmore⟩ := Frame.exists_tokens_plugAll (.number "0") fs
  have hfits : (Expr.number "0").Fits (Frame.level fs) := by
    unfold Expr.Fits
    trivial
  refine ⟨_, .number "0" :: more, Frame.fits_plugAll hsound hfits, ?_⟩
  rw [hmore, htokens, List.append_assoc]
  rfl

/-! ## A token that exceeds a limit can stand where it does -/

theorem Invariant.opens_of_start (h : Invariant start ts p) (hp : p.AwaitsOperand)
    (hstep : p.start t = .error cause) (hcause : cause.isLimit = true) : Opens (ts ++ [t]) := by
  have htokens := (h.tokensOf_eq hp).1
  have hrefused : cause ≠ .operand ∧ cause ≠ .singleEquals := by
    constructor <;> (rintro rfl; exact absurd hcause (by decide))
  cases t with
  | leftParen => exact ⟨p.outer, .paren :: p.frames, h.sound, by rw [← htokens]; rfl⟩
  | op o =>
    simp only [Progress.start] at hstep
    split at hstep
    · rename_i s hs
      refine ⟨p.outer, .sign s :: p.frames, h.sound, ?_⟩
      rw [← htokens, ← Sign.token_eq_of_sign? hs]
      rfl
    · exact absurd (Except.error.inj hstep).symm hrefused.1
  | number _ | string _ | name _ => exact absurd hstep (by simp [Progress.start])
  | doubleEquals => exact absurd (Except.error.inj hstep).symm hrefused.2
  | rightParen | comma | ending => exact absurd (Except.error.inj hstep).symm hrefused.1

theorem Invariant.opens_of_extend {e : Expr} (h : Invariant start ts p)
    (hsettled : t ≠ .leftParen → p.Settled) (hp : p.awaited = .continuation e)
    (hstep : p.extend e t = .error cause) (hcause : cause.isLimit = true) :
    Opens (ts ++ [t]) := by
  cases t with
  | op o =>
    generalize hfs : Frame.applyOperators o.precedence e p.frames = reduced
    obtain ⟨left, fs⟩ := reduced
    obtain ⟨hholds, -, hfits, hlevel⟩ :=
      h.reduce (hsettled (by simp)) hp (Nat.le_succ_of_le o.precedence_le_four) hfs
    rw [Nat.max_eq_left o.one_le_precedence] at hlevel
    refine ⟨p.outer, .operator left o :: fs, ⟨hholds.sound, hlevel, hfits, hholds.nesting_le⟩, ?_⟩
    rw [← hholds.tokens_eq, List.append_assoc]
    rfl
  -- Every other token is refused for what is open, and not for a limit.
  | doubleEquals =>
    cases hstep
    exact absurd hcause (by decide)
  | _ =>
    simp only [extend] at hstep
    generalize Frame.applyOperators 0 e p.frames = reduced at hstep
    obtain ⟨d, fs⟩ := reduced
    cases fs with
    | nil => cases hstep; exact absurd hcause (by decide)
    | cons f fs =>
      cases f <;> first | (cases hstep; exact absurd hcause (by decide)) |
        exact absurd hstep (by simp)

theorem Invariant.opens_of_take (h : Invariant start ts p) (htake : p.take t = .error cause)
    (hcause : cause.isLimit = true) : Opens (ts ++ [t]) := by
  obtain ⟨happlied, hsettled⟩ := h.applySigns t
  unfold take at htake
  generalize p.applySigns t = r at htake happlied hsettled
  unfold step at htake
  split at htake
  · rename_i hr
    exact happlied.opens_of_start (.inl hr) htake hcause
  · rename_i hr
    split at htake
    · exact absurd htake (by simp)
    · exact happlied.opens_of_start (.inr hr) htake hcause
  · rename_i e hr
    split at htake
    · rename_i f
      refine ⟨r.outer, .call f [] :: r.frames, ⟨happlied.sound, by simp, by simp⟩, ?_⟩
      rw [← happlied.tokens_eq, hr, List.append_assoc]
      rfl
    · exact happlied.opens_of_extend hsettled hr htake hcause

end Progress

/-! ## Its role -/

/-- Whether `t` is the first token to exceed a limit behind the tokens `before`: some expressions of
the grammar start with these tokens, and in all of them `t` has the role `role`, while the tokens
before it are within the limits. -/
structure Token.Exceeds (before : List Token) (t : Token) (role : Role) : Prop where
  exceeds : ¬role.IsWithin
  exists_expr : ∃ e more, Expr.Fits 1 e ∧ e.tokens = before ++ t :: more
  roles_eq : ∀ e more, Expr.Fits 1 e → e.tokens = before ++ t :: more →
    ∃ rs ss, e.roles 0 0 = rs ++ (t, role) :: ss ∧ rs.map Prod.fst = before ∧
      ∀ x ∈ rs, x.2.IsWithin

namespace Reader

variable {before : List Token.Placed} {t : Token} {q : Progress} {cause : Expectation}

theorem ComesTo.opens (h : ComesTo before q) (htake : q.take t = .error cause)
    (hcause : cause.isLimit = true) :
    ∃ e more, Expr.Fits 1 e ∧ e.tokens = before.map Token.Placed.token ++ t :: more := by
  obtain ⟨e, more, hfits, htokens⟩ := (h.invariant.opens_of_take htake hcause).exists_expr
  exact ⟨e, more, hfits, by rw [htokens, List.append_assoc]; rfl⟩

/-- In every expression that starts with the tokens taken and one more, this one has the role that
the reader judges it by. -/
theorem ComesTo.exists_leads (h : ComesTo before q) {e : Expr} {more : List Token}
    (hfits : e.Fits 1) (htokens : e.tokens = before.map Token.Placed.token ++ t :: more) :
    ∃ rs role ss s, e.roles 0 0 = rs ++ (t, role) :: ss ∧
      rs.map Prod.fst = before.map Token.Placed.token ∧ (∀ x ∈ rs, x.2.IsWithin) ∧
      Progress.Leads q t role s := by
  obtain ⟨r, hwalk, -⟩ := Progress.walks e ⟨[], .operand, 0, 0⟩ 1 (.inl rfl) hfits (by decide)
    (Nat.le_refl 1)
  rw [← Expr.map_fst_roles 0 0] at htokens
  exact hwalk.exists_leads htokens h.feed_eq

theorem ComesTo.exceeds_nesting (h : ComesTo before q)
    (htake : q.take t = .error .shallowerNesting) :
    Token.Exceeds (before.map Token.Placed.token) t (.opens (maxNesting + 1)) where
  exceeds := Nat.not_succ_le_self maxNesting
  exists_expr := h.opens htake rfl
  roles_eq e more hfits htokens := by
    obtain ⟨rs, role, ss, s, hroles, hrs, hwithin, hleads⟩ := h.exists_leads hfits htokens
    rcases hleads.of_take_eq_error htake with ⟨-, rfl, hge⟩ | ⟨hcause, -⟩
    · rw [Nat.le_antisymm h.invariant.nesting_le hge] at hroles
      exact ⟨rs, ss, hroles, hrs, hwithin⟩
    · exact absurd hcause (by decide)

theorem ComesTo.exceeds_operators (h : ComesTo before q)
    (htake : q.take t = .error .fewerOperators) :
    Token.Exceeds (before.map Token.Placed.token) t (.operator (maxOperators + 1)) where
  exceeds := Nat.not_succ_le_self maxOperators
  exists_expr := h.opens htake rfl
  roles_eq e more hfits htokens := by
    obtain ⟨rs, role, ss, s, hroles, hrs, hwithin, hleads⟩ := h.exists_leads hfits htokens
    rcases hleads.of_take_eq_error htake with ⟨hcause, -⟩ | ⟨-, rfl, hge⟩
    · exact absurd hcause (by decide)
    · rw [Nat.le_antisymm h.invariant.operators_le hge] at hroles
      exact ⟨rs, ss, hroles, hrs, hwithin⟩

end Reader

/-! ## What is reported instead -/

/-- The tokens of a formula stand one behind the other. -/
theorem Scanner.pairwise_place {source : String} {ts : List Token.Placed}
    (h : tokens source = .ok ts) : ts.Pairwise fun s t => s.place < t.place := by
  obtain ⟨blanks, mark, xs, hcut⟩ := exists_cut h
  obtain rfl := Except.ok.inj (h.symm.trans hcut.tokens_eq)
  have hpairwise := (hcut.fit.pairwise_placed .ending (.behind (blanks ++ mark))).1
  rwa [← Position.after_start, ← Position.after_append, Position.after_start,
    Position.after_start] at hpairwise

namespace Formula

/-- A limit that is exceeded is reported at the token behind the one that exceeds it, which opens
one level too many on its path or is the first operator too many. -/
theorem excess_reported_behind {source : String} {e : Mismatch}
    (h : parse source = .error (.mismatch e)) (hlimit : e.expected.isLimit = true) :
    ∃ before t next after, Scanner.tokens source = .ok (before ++ t :: next :: after) ∧
      (e.found = next.token.text ∧ e.place = next.place ∧ t.place < e.place) ∧
      (e.expected = .shallowerNesting →
        Token.Exceeds (before.map Token.Placed.token) t.token (.opens (maxNesting + 1))) ∧
      (e.expected = .fewerOperators →
        Token.Exceeds (before.map Token.Placed.token) t.token (.operator (maxOperators + 1))) := by
  obtain ⟨ts, hscan, hread⟩ := exists_of_parse_eq_mismatch h
  obtain ⟨before, t, next, after, q, rfl, hrest, hq, -, htake⟩ :=
    Reader.exists_excess (Scanner.ended_tokens hscan) hread hlimit
  obtain ⟨hfound, hplace⟩ := Reader.found_and_place_of_rest hread hrest
  have hbehind : t.place < next.place := by
    have hpairwise := (List.pairwise_append.mp (Scanner.pairwise_place hscan)).2.1
    exact List.rel_of_pairwise_cons hpairwise List.mem_cons_self
  refine ⟨before, t, next, after, hscan, ⟨hfound, hplace, hplace ▸ hbehind⟩, ?_, ?_⟩
  · intro hexpected
    rw [hexpected] at htake
    exact hq.exceeds_nesting htake
  · intro hexpected
    rw [hexpected] at htake
    exact hq.exceeds_operators htake

set_option maxRecDepth 4000 in
/-- A sign below 64 groups, each behind a sign: the name behind it is reported. -/
theorem excess_reported_behind_of_sign :
    let source := "F(1,2)+" ++ String.join (List.replicate 64 "-(") ++ "+A"
    let e : Mismatch := ⟨.shallowerNesting, "A", ⟨1, 137⟩⟩
    parse source = .error (.mismatch e) ∧ e.expected.isLimit = true ∧
      ∃ before t next after, Scanner.tokens source = .ok (before ++ t :: next :: after) ∧
        (e.found = next.token.text ∧ e.place = next.place ∧ t.place < e.place) ∧
        (e.expected = .shallowerNesting →
          Token.Exceeds (before.map Token.Placed.token) t.token (.opens (maxNesting + 1))) ∧
        (e.expected = .fewerOperators →
          Token.Exceeds (before.map Token.Placed.token) t.token
            (.operator (maxOperators + 1))) := by
  intro source e
  have h : parse source = .error (.mismatch e) := by cbv
  exact ⟨h, rfl, excess_reported_behind h rfl⟩

set_option maxRecDepth 4000 in
/-- The parenthesis that opens level 129 stands at column 129, and the number behind it is
reported. -/
theorem excess_not_reported_at_fault :
    let source := String.ofList (List.replicate 129 '(' ++ ['1'])
    let e : Mismatch := ⟨.shallowerNesting, "1", ⟨1, 130⟩⟩
    let t : Token.Placed := ⟨.leftParen, ⟨1, 129⟩⟩
    parse source = .error (.mismatch e) ∧
      (∃ ts, Scanner.tokens source = .ok ts ∧ ts[128]? = some t ∧
        Token.Exceeds ((ts.take 128).map Token.Placed.token) t.token (.opens (maxNesting + 1))) ∧
      ¬(e.found = t.token.text ∧ e.place = t.place) := by
  intro source e t
  let before : List Token.Placed := (List.range 128).map fun k => ⟨.leftParen, ⟨1, k + 1⟩⟩
  have hscan : Scanner.tokens source =
      .ok (before ++ [t, ⟨.number "1", ⟨1, 130⟩⟩, ⟨.ending, ⟨1, 131⟩⟩]) := by cbv
  have hparse : parse source = .error (.mismatch e) := by
    unfold parse
    rw [hscan]
    cbv
  have hcomes : Reader.ComesTo before ⟨List.replicate 128 .paren, .operand, 0, 0⟩ :=
    ⟨by decide, by cbv⟩
  have htake : (Progress.mk (List.replicate 128 .paren) .operand 0 0).take .leftParen =
      .error .shallowerNesting := by cbv
  have hexceeds := hcomes.exceeds_nesting htake
  refine ⟨hparse, ⟨_, hscan, by rfl, ?_⟩, ?_⟩
  · rw [List.take_left' (by simp [before])]
    exact hexceeds
  · rintro ⟨hfound, -⟩
    exact absurd hfound (by decide)

end Formula

end FormulaTree
