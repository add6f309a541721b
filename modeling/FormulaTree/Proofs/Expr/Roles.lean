import FormulaTree.Proofs.Expr.Soundness

/-!
# The roles of tokens

What a token counts for: some open a level of nesting, some are binary operators, and the others
count for nothing. `Expr.roles` says so for each token of an expression, and `Progress.Walk` follows
a reader over tokens in their roles, as if there were no limits.
-/

namespace FormulaTree

/-- What a token counts for where it stands in an expression. -/
inductive Role where
  | plain
  /-- A sign, or the parenthesis of a group or of a call, which opens the given level on its path;
  the outermost is level 1. -/
  | opens (level : Nat)
  /-- The binary operator with the given number, counted from 1. -/
  | operator (number : Nat)
deriving DecidableEq, Repr

/-- Whether a token in that role is within the limits. -/
def Role.IsWithin : Role → Prop
  | plain => True
  | opens level => level ≤ maxNesting
  | operator number => number ≤ maxOperators

namespace Expr

mutual

/-- The tokens of an expression with their roles, when the expression stands below `level` levels
and behind `done` binary operators. -/
def roles (level done : Nat) : Expr → List (Token × Role)
  | number text => [(.number text, .plain)]
  | string contents => [(.string contents, .plain)]
  | name text => [(.name text, .plain)]
  | unary sign operand => (sign.token, .opens (level + 1)) :: operand.roles (level + 1) done
  | binary left o right =>
    left.roles level done ++ (.op o, .operator (done + left.operatorCount + 1)) ::
      right.roles level (done + left.operatorCount + 1)
  | paren inner =>
    (.leftParen, .opens (level + 1)) :: (inner.roles (level + 1) done ++ [(.rightParen, .plain)])
  | call f args =>
    (.name f, .plain) :: (.leftParen, .opens (level + 1)) ::
      (argRoles (level + 1) done args ++ [(.rightParen, .plain)])

/-- The tokens of the arguments of a call, with commas between them, and their roles. -/
def argRoles (level done : Nat) : List Expr → List (Token × Role)
  | [] => []
  | e :: es => e.roles level done ++ furtherRoles level (done + e.operatorCount) es

/-- The tokens of further arguments, with a comma before each, and their roles. -/
def furtherRoles (level done : Nat) : List Expr → List (Token × Role)
  | [] => []
  | e :: es =>
    (.comma, .plain) :: (e.roles level done ++ furtherRoles level (done + e.operatorCount) es)

end

mutual

@[simp] theorem map_fst_roles (level done : Nat) :
    (e : Expr) → (e.roles level done).map Prod.fst = e.tokens
  | number _ | string _ | name _ => rfl
  | unary _ operand => by simp [roles, tokens, map_fst_roles _ _ operand]
  | binary left _ right => by
    simp [roles, tokens, map_fst_roles _ _ left, map_fst_roles _ _ right]
  | paren inner => by simp [roles, tokens, map_fst_roles _ _ inner]
  | call _ args => by simp [roles, tokens, map_fst_argRoles _ _ args]

theorem map_fst_argRoles (level done : Nat) :
    (es : List Expr) → (argRoles level done es).map Prod.fst = argTokens es
  | [] => rfl
  | e :: es => by
    simp [argRoles, argTokens, map_fst_roles _ _ e, map_fst_furtherRoles _ _ es]

theorem map_fst_furtherRoles (level done : Nat) :
    (es : List Expr) → (furtherRoles level done es).map Prod.fst = furtherTokens es
  | [] => rfl
  | e :: es => by
    simp [furtherRoles, furtherTokens, map_fst_roles _ _ e, map_fst_furtherRoles _ _ es]

end

mutual

/-- In an expression that is within the limits every token is. -/
theorem isWithin_of_mem_roles {level done : Nat} :
    (e : Expr) → e.nesting + level ≤ maxNesting → done + e.operatorCount ≤ maxOperators →
      ∀ x ∈ e.roles level done, x.2.IsWithin
  | number _, _, _, x, hx | string _, _, _, x, hx | name _, _, _, x, hx => by
    rw [List.mem_singleton.mp hx]
    trivial
  | unary s operand, hnesting, hoperators, x, hx => by
    rw [nesting] at hnesting
    rcases List.mem_cons.mp hx with rfl | hx
    · show level + 1 ≤ maxNesting
      omega
    · exact isWithin_of_mem_roles operand (by omega) hoperators x hx
  | binary left o right, hnesting, hoperators, x, hx => by
    rw [nesting] at hnesting
    rw [operatorCount] at hoperators
    rcases List.mem_append.mp hx with hx | hx
    · exact isWithin_of_mem_roles left (by omega) (by omega) x hx
    · rcases List.mem_cons.mp hx with rfl | hx
      · show done + left.operatorCount + 1 ≤ maxOperators
        omega
      · exact isWithin_of_mem_roles right (by omega) (by omega) x hx
  | paren inner, hnesting, hoperators, x, hx => by
    rw [nesting] at hnesting
    rcases List.mem_cons.mp hx with rfl | hx
    · show level + 1 ≤ maxNesting
      omega
    · rcases List.mem_append.mp hx with hx | hx
      · exact isWithin_of_mem_roles inner (by omega) hoperators x hx
      · rw [List.mem_singleton.mp hx]
        trivial
  | call f args, hnesting, hoperators, x, hx => by
    rw [nesting] at hnesting
    rcases List.mem_cons.mp hx with rfl | hx
    · trivial
    · rcases List.mem_cons.mp hx with rfl | hx
      · show level + 1 ≤ maxNesting
        omega
      · rcases List.mem_append.mp hx with hx | hx
        · exact isWithin_of_mem_argRoles args (by omega) hoperators x hx
        · rw [List.mem_singleton.mp hx]
          trivial

theorem isWithin_of_mem_argRoles {level done : Nat} :
    (es : List Expr) → nestingAll es + level ≤ maxNesting →
      done + operatorCountAll es ≤ maxOperators → ∀ x ∈ argRoles level done es, x.2.IsWithin
  | [], _, _, _, hx => absurd hx List.not_mem_nil
  | e :: es, hnesting, hoperators, x, hx => by
    rw [nestingAll] at hnesting
    rw [operatorCountAll] at hoperators
    rcases List.mem_append.mp hx with hx | hx
    · exact isWithin_of_mem_roles e (by omega) (by omega) x hx
    · exact isWithin_of_mem_furtherRoles es (by omega) (by omega) x hx

theorem isWithin_of_mem_furtherRoles {level done : Nat} :
    (es : List Expr) → nestingAll es + level ≤ maxNesting →
      done + operatorCountAll es ≤ maxOperators → ∀ x ∈ furtherRoles level done es, x.2.IsWithin
  | [], _, _, _, hx => absurd hx List.not_mem_nil
  | e :: es, hnesting, hoperators, x, hx => by
    rw [nestingAll] at hnesting
    rw [operatorCountAll] at hoperators
    rcases List.mem_cons.mp hx with rfl | hx
    · trivial
    · rcases List.mem_append.mp hx with hx | hx
      · exact isWithin_of_mem_roles e (by omega) (by omega) x hx
      · exact isWithin_of_mem_furtherRoles es (by omega) (by omega) x hx

end

end Expr

namespace Progress

variable {p q r : Progress} {t : Token} {role : Role} {rs ss : List (Token × Role)}

/-- Where a token in a role leads from `p` if no limit stops it there. -/
inductive Leads (p : Progress) (t : Token) : Role → Progress → Prop where
  | plain {q : Progress} (htake : p.take t = .ok q) : Leads p t .plain q
  | opens {q : Progress}
      (htake : p.take t = if p.nesting < maxNesting then .ok q else .error .shallowerNesting) :
      Leads p t (.opens (p.nesting + 1)) q
  | operator {q : Progress}
      (htake : p.take t = if p.operators < maxOperators then .ok q else .error .fewerOperators) :
      Leads p t (.operator (p.operators + 1)) q

theorem Leads.take_eq (h : Leads p t role q) (hrole : role.IsWithin) : p.take t = .ok q := by
  cases h with
  | plain htake => exact htake
  | opens htake => rw [htake, if_pos (Nat.lt_of_succ_le hrole)]
  | operator htake => rw [htake, if_pos (Nat.lt_of_succ_le hrole)]

/-- A token is taken only within the limits. -/
theorem Leads.of_take_eq_ok (h : Leads p t role q) (htake : p.take t = .ok r) :
    role.IsWithin ∧ r = q := by
  cases h with
  | plain hq => exact ⟨trivial, Except.ok.inj (htake.symm.trans hq)⟩
  | opens hq | operator hq =>
    rw [hq] at htake
    split at htake
    · rename_i hlt
      exact ⟨hlt, (Except.ok.inj htake).symm⟩
    · exact absurd htake (by simp)

/-- Only a token that exceeds a limit is refused, and the refusal says which. -/
theorem Leads.of_take_eq_error {cause : Expectation} (h : Leads p t role q)
    (htake : p.take t = .error cause) :
    (cause = .shallowerNesting ∧ role = .opens (p.nesting + 1) ∧ maxNesting ≤ p.nesting) ∨
      (cause = .fewerOperators ∧ role = .operator (p.operators + 1) ∧
        maxOperators ≤ p.operators) := by
  cases h with
  | plain hq => exact absurd (htake.symm.trans hq) (by simp)
  | opens hq =>
    rw [hq] at htake
    split at htake
    · exact absurd htake (by simp)
    · rename_i hge
      exact .inl ⟨(Except.error.inj htake).symm, rfl, Nat.le_of_not_lt hge⟩
  | operator hq =>
    rw [hq] at htake
    split at htake
    · exact absurd htake (by simp)
    · rename_i hge
      exact .inr ⟨(Except.error.inj htake).symm, rfl, Nat.le_of_not_lt hge⟩

theorem leads_sign (s : Sign) (hp : p.AwaitsOperand) :
    Leads p s.token (.opens (p.nesting + 1))
      { p with frames := .sign s :: p.frames, awaited := .operand } := by
  apply Leads.opens
  unfold take
  rw [applySigns_of_awaitsOperand hp]
  rcases hp with hp | hp <;> cases s <;>
    simp only [step, hp, Sign.token, start, BinaryOp.sign?, enter]

theorem leads_openParen (hp : p.AwaitsOperand) :
    Leads p .leftParen (.opens (p.nesting + 1))
      { p with frames := .paren :: p.frames, awaited := .operand } := by
  apply Leads.opens
  unfold take
  rw [applySigns_of_awaitsOperand hp]
  rcases hp with hp | hp <;> simp only [step, hp, start, enter]

theorem leads_openCall (f : String) (hp : p.awaited = .continuation (.name f)) :
    Leads p .leftParen (.opens (p.nesting + 1))
      { p with frames := .call f [] :: p.frames, awaited := .argument } := by
  apply Leads.opens
  unfold take
  rw [applySigns_name hp]
  simp only [step, hp, enter]

/-- A reader led by tokens in their roles, one after another. -/
inductive Walk : Progress → List (Token × Role) → Progress → Prop where
  | nil (p : Progress) : Walk p [] p
  | cons {p q r : Progress} {t : Token} {role : Role} {rs : List (Token × Role)}
      (hfirst : Leads p t role q) (hrest : Walk q rs r) : Walk p ((t, role) :: rs) r

namespace Walk

theorem append (h : Walk p rs q) (h' : Walk q ss r) : Walk p (rs ++ ss) r := by
  induction h with
  | nil _ => exact h'
  | cons hfirst _ ih => exact .cons hfirst (ih h')

theorem concat (h : Walk p rs q) (h' : Leads q t role r) : Walk p (rs ++ [(t, role)]) r :=
  h.append (.cons h' (.nil r))

/-- Within the limits the tokens of a walk are taken. -/
theorem feed_eq (h : Walk p rs q) (hwithin : ∀ x ∈ rs, x.2.IsWithin) :
    p.feed (rs.map Prod.fst) = .ok q := by
  induction h with
  | nil _ => rfl
  | cons hfirst _ ih =>
    obtain ⟨hrole, hrest⟩ := List.forall_mem_cons.mp hwithin
    rw [List.map_cons, feed_cons (hfirst.take_eq hrole), ih hrest]

/-- The tokens that are taken are within the limits, and lead where the walk leads. -/
theorem exists_leads {before more : List Token} (h : Walk p rs q)
    (htokens : rs.map Prod.fst = before ++ t :: more) (hfeed : p.feed before = .ok r) :
    ∃ xs role ys s, rs = xs ++ (t, role) :: ys ∧ xs.map Prod.fst = before ∧
      (∀ x ∈ xs, x.2.IsWithin) ∧ Leads r t role s := by
  induction before generalizing p rs with
  | nil =>
    cases Except.ok.inj hfeed
    cases h with
    | nil _ => exact absurd htokens (by simp)
    | cons hfirst _ =>
      obtain ⟨rfl, -⟩ := List.cons.inj htokens
      exact ⟨[], _, _, _, rfl, rfl, by simp, hfirst⟩
  | cons u before ih =>
    cases h with
    | nil _ => exact absurd htokens (by simp)
    | @cons _ _ _ first role _ hfirst hrest =>
      obtain ⟨rfl, hmore⟩ := List.cons.inj htokens
      obtain ⟨o, htake, hfeedMore⟩ := exists_of_feed_cons hfeed
      obtain ⟨hrole, rfl⟩ := hfirst.of_take_eq_ok htake
      obtain ⟨xs, last, ys, s, rfl, hxs, hwithin, hlast⟩ := ih hrest hmore hfeedMore
      refine ⟨(first, role) :: xs, last, ys, s, rfl, ?_, ?_, hlast⟩
      · rw [List.map_cons, hxs]
      · exact List.forall_mem_cons.mpr ⟨hrole, hwithin⟩

end Walk

end Progress

end FormulaTree
