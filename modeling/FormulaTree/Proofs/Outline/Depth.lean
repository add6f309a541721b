import FormulaTree.Proofs.Outline.MarkedTree
import FormulaTree.Proofs.RoundTrip

/-!
# The depth of formulas

The limits on nesting and on operators together bound every path through a formula that is read, and
with it every path through its outline: on a path there are no more signs, parentheses and calls
than may be open at once, and no more operators than there are at all. A formula that exhausts both
limits reaches the bounds.
-/

namespace FormulaTree

/-! ## Paths through expressions -/

namespace Expr

mutual

/-- The number of nodes on the longest path from the root to a leaf. -/
def longestPath : Expr → Nat
  | number _ | string _ | name _ => 1
  | unary _ operand => operand.longestPath + 1
  | binary left _ right => max left.longestPath right.longestPath + 1
  | paren inner => inner.longestPath + 1
  | call _ args => longestPathAll args + 1

/-- The number of nodes on the longest path in any of the expressions. -/
def longestPathAll : List Expr → Nat
  | [] => 0
  | e :: es => max e.longestPath (longestPathAll es)

end

mutual

/-- A path has at most all operators on it, and one leaf at its end. -/
theorem longestPath_le : (e : Expr) → e.longestPath ≤ e.nesting + e.operatorCount + 1
  | number _ | string _ | name _ => by simp [longestPath]
  | unary _ operand => by
    have hoperand := operand.longestPath_le
    rw [longestPath, nesting, operatorCount]
    omega
  | binary left _ right => by
    have hleft := left.longestPath_le
    have hright := right.longestPath_le
    rw [longestPath, nesting, operatorCount]
    omega
  | paren inner => by
    have hinner := inner.longestPath_le
    rw [longestPath, nesting, operatorCount]
    omega
  | call _ args => by
    have hargs := longestPathAll_le args
    rw [longestPath, nesting, operatorCount]
    omega

theorem longestPathAll_le : (es : List Expr) →
    longestPathAll es ≤ nestingAll es + operatorCountAll es + 1
  | [] => Nat.zero_le _
  | e :: es => by
    have he := e.longestPath_le
    have hes := longestPathAll_le es
    rw [longestPathAll, nestingAll, operatorCountAll]
    omega

end

mutual

/-- The calls around a call are nested, and so is the call itself. -/
theorem depth_lt_of_mem_listing {depth : Nat} {entry : String × Nat} : (e : Expr) →
    entry ∈ e.listing depth → entry.2 < depth + e.nesting
  | number _, h | string _, h | name _, h | unary _ _, h => absurd h List.not_mem_nil
  | binary left _ right, h => by
    rw [nesting]
    rcases List.mem_append.mp h with h | h
    · have hleft := depth_lt_of_mem_listing left h
      omega
    · have hright := depth_lt_of_mem_listing right h
      omega
  | paren inner, h => by
    have hinner := depth_lt_of_mem_listing inner h
    rw [nesting]
    omega
  | call _ args, h => by
    rw [nesting]
    rcases List.mem_cons.mp h with rfl | h
    · show depth < _
      omega
    · have hargs := depth_lt_of_mem_listingAll args h
      omega

theorem depth_lt_of_mem_listingAll {depth : Nat} {entry : String × Nat} : (es : List Expr) →
    entry ∈ listingAll depth es → entry.2 < depth + nestingAll es
  | [], h => absurd h List.not_mem_nil
  | e :: es, h => by
    rw [nestingAll]
    rcases List.mem_append.mp h with h | h
    · have he := depth_lt_of_mem_listing e h
      omega
    · have hes := depth_lt_of_mem_listingAll es h
      omega

end

end Expr

/-! ## Paths through blocks -/

mutual

/-- The number of blocks on the longest path from a block to one without blocks in it. -/
def Block.longestPath : Block → Nat
  | .line _ => 1
  | .paren inner => inner.longestPath + 1
  | .binary left _ right => max left.longestPath right.longestPath + 1
  | .call _ _ _ rows => rows.longestPath + 1

def Rows.longestPath : Rows → Nat
  | .nil => 0
  | .cons _ value rest => max value.longestPath rest.longestPath

end

mutual

/-- What stands below a sign makes no block of its own. -/
theorem Block.longestPath_ofExpr_le (label : String → Nat → String) (first : Nat) : (e : Expr) →
    (Block.ofExpr label first e).longestPath ≤ e.longestPath
  | .number _ | .string _ | .name _ => Nat.le_refl 1
  | .unary _ operand => by
    rw [Block.ofExpr, Block.longestPath, Expr.longestPath]
    omega
  | .binary left _ right => by
    have hleft := Block.longestPath_ofExpr_le label first left
    have hright := Block.longestPath_ofExpr_le label (first + left.blockCount) right
    rw [Block.ofExpr, Block.longestPath, Expr.longestPath]
    omega
  | .paren inner => Nat.succ_le_succ (Block.longestPath_ofExpr_le label first inner)
  | .call f args =>
    Nat.succ_le_succ (Rows.longestPath_ofArgs_le label (Text.upperCase f) 0 (first + 1) args)

theorem Rows.longestPath_ofArgs_le (label : String → Nat → String) (function : String)
    (index first : Nat) : (es : List Expr) →
    (Rows.ofArgs label function index first es).longestPath ≤ Expr.longestPathAll es
  | [] => Nat.le_refl 0
  | e :: es => by
    have he := Block.longestPath_ofExpr_le label first e
    have hes := Rows.longestPath_ofArgs_le label function (index + 1) (first + e.blockCount) es
    rw [Rows.ofArgs, Rows.longestPath, Expr.longestPathAll]
    omega

end

/-! ## The bounds -/

/-- Every path through a formula that is read is bounded, and so is every path through its outline,
however it is folded. -/
theorem Formula.depth_bounded {source : String} {e : Expr} (h : Formula.parse source = .ok e) :
    e.longestPath ≤ 128 + 2048 + 1 ∧ e.operatorCount ≤ 2048 ∧
      ∀ settings folds, ∃ o, Outline.ofSource settings source = .ok o ∧
        (o.after folds).root.longestPath ≤ e.longestPath ∧
        ∀ c ∈ (o.after folds).calls, c.depth ≤ 127 := by
  have hcanonical := Formula.canonical_of_parse h
  have hnesting : e.nesting ≤ 128 := hcanonical.nesting_le
  have hoperators : e.operatorCount ≤ 2048 := hcanonical.operatorCount_le
  have hpath := e.longestPath_le
  refine ⟨by omega, hoperators, fun settings folds => ?_⟩
  refine ⟨_, Outline.ofSource_of_parse_ok h settings, ?_⟩
  have hroot := Outline.root_after (Outline.numbered_ofExpr settings (Text.trim source) e) folds
  refine ⟨?_, fun c hc => ?_⟩
  · rw [hroot]
    exact Block.longestPath_ofExpr_le settings.label 0 e
  · rw [Outline.calls_of_root_eq settings (Text.trim source) e hroot] at hc
    obtain ⟨⟨entry, id⟩, hentry, rfl⟩ := List.mem_map.mp hc
    have hmem : entry ∈ e.listing 0 := List.mem_of_getElem? (List.mem_zipIdx_iff_getElem?.mp hentry)
    have hdepth := Expr.depth_lt_of_mem_listing e hmem
    show entry.2 ≤ 127
    omega

/-! ## A formula at the bounds -/

namespace Expr

/-- The sum of `n + 1` ones. -/
def ones : Nat → Expr
  | 0 => number "1"
  | n + 1 => binary (ones n) .add (number "1")

/-- An expression in `n` calls, one in the other. -/
def within (e : Expr) : Nat → Expr
  | 0 => e
  | n + 1 => call "F" [e.within n]

/-- Whether an expression can be read but for the limits, and has the given measures. -/
structure Measures (e : Expr) (nesting operators path : Nat) : Prop where
  fits : e.Fits 1
  spelled : ∀ t ∈ e.tokens, t.Spelled
  nesting_eq : e.nesting = nesting
  operatorCount_eq : e.operatorCount = operators
  longestPath_eq : e.longestPath = path

theorem fits_ones (n : Nat) : (ones n).Fits 2 := by
  induction n with
  | zero => trivial
  | succ n ih => exact ⟨Nat.le_refl 2, ih, trivial⟩

theorem measures_ones (n : Nat) : (ones n).Measures 0 n (n + 1) := by
  have hone : (Token.number "1").Spelled := ⟨'1', [], rfl, rfl, by simp⟩
  induction n with
  | zero => exact ⟨trivial, by simpa [ones, tokens] using hone, rfl, rfl, rfl⟩
  | succ n ih =>
    refine ⟨(fits_ones (n + 1)).mono (by omega), ?_, ?_, ?_, ?_⟩
    · rw [ones, tokens, List.forall_mem_append, List.forall_mem_cons]
      exact ⟨ih.spelled, trivial, by simpa [tokens] using hone⟩
    · rw [ones, nesting, ih.nesting_eq, nesting, Nat.max_self]
    · rw [ones, operatorCount, ih.operatorCount_eq, operatorCount, Nat.add_zero]
    · rw [ones, longestPath, ih.longestPath_eq, longestPath]
      omega

theorem Measures.within {e : Expr} {nesting operators path : Nat}
    (h : e.Measures nesting operators path) (n : Nat) :
    (e.within n).Measures (nesting + n) operators (path + n) := by
  induction n with
  | zero => exact h
  | succ n ih =>
    have hname : (Token.name "F").Spelled := ⟨'F', [], rfl, rfl, by simp⟩
    refine ⟨⟨ih.fits, trivial⟩, ?_, ?_, ?_, ?_⟩
    · intro t ht
      simp only [Expr.within, tokens, argTokens, furtherTokens, List.append_nil, List.mem_cons,
        List.mem_append, List.not_mem_nil, or_false] at ht
      rcases ht with rfl | rfl | ht | rfl
      · exact hname
      · trivial
      · exact ih.spelled t ht
      · trivial
    · rw [Expr.within, Expr.nesting, nestingAll, nestingAll, ih.nesting_eq]
      omega
    · rw [Expr.within, operatorCount, operatorCountAll, operatorCountAll, ih.operatorCount_eq]
      rfl
    · rw [Expr.within, longestPath, longestPathAll, longestPathAll, ih.longestPath_eq]
      omega

theorem Measures.canonical {e : Expr} {nesting operators path : Nat}
    (h : e.Measures nesting operators path) (hnesting : nesting ≤ maxNesting)
    (hoperators : operators ≤ maxOperators) : e.Canonical :=
  ⟨⟨h.fits, by rw [h.nesting_eq]; exact hnesting, by rw [h.operatorCount_eq]; exact hoperators⟩,
    h.spelled⟩

/-- All other calls are around the innermost one. -/
theorem mem_listing_within (e : Expr) (n depth : Nat) :
    ("F", depth + n) ∈ (e.within (n + 1)).listing depth := by
  have hname : Text.upperCase "F" = "F" := by decide
  induction n generalizing depth with
  | zero =>
    rw [within, listing, hname]
    exact List.mem_cons_self
  | succ n ih =>
    have hinner := ih (depth + 1)
    rw [within, listing, listingAll, listingAll, List.append_nil]
    rw [Nat.add_assoc, Nat.add_comm 1 n] at hinner
    exact List.mem_cons_of_mem _ hinner

end Expr

/-- A formula with as many calls in one another and as many operators as there may be is as deep as
a formula can be. -/
theorem Formula.depth_bounded_of_deepest :
    let e := (Expr.ones 2048).within 128
    Formula.parse e.oneLine = .ok e ∧ e.longestPath = 128 + 2048 + 1 ∧ e.operatorCount = 2048 ∧
      ("F", 127) ∈ e.listing 0 ∧
      ∀ settings folds, ∃ o, Outline.ofSource settings e.oneLine = .ok o ∧
        (o.after folds).root.longestPath ≤ e.longestPath ∧
        ∀ c ∈ (o.after folds).calls, c.depth ≤ 127 := by
  intro e
  have hmeasures : e.Measures (0 + 128) 2048 (2048 + 1 + 128) :=
    (Expr.measures_ones 2048).within 128
  have hparse := Formula.parse_oneLine (hmeasures.canonical (by decide) (by decide))
  obtain ⟨-, -, hshown⟩ := Formula.depth_bounded hparse
  have hinnermost := (Expr.ones 2048).mem_listing_within 127 0
  rw [Nat.zero_add] at hinnermost
  exact ⟨hparse, hmeasures.longestPath_eq, hmeasures.operatorCount_eq, hinnermost, hshown⟩

end FormulaTree
