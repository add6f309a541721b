import FormulaTree.Formula
import FormulaTree.Proofs.Expr.Completeness
import FormulaTree.Proofs.Token.Partition

/-!
# What is read from a formula

A formula is read as `e` when it can be cut into pieces that carry the tokens of `e`.
-/

namespace FormulaTree

theorem exists_of_map_eq_ok {ε α β : Type} {f : α → β} {x : Except ε α} {b : β}
    (h : x.map f = .ok b) : ∃ a, x = .ok a ∧ b = f a := by
  cases x with
  | error cause => exact absurd h (by simp [Except.map])
  | ok a => exact ⟨a, rfl, (Except.ok.inj h).symm⟩

namespace Scanner

variable {blanks mark : List Char} {xs : List Piece}

theorem Cut.beforeEnding_eq {source : List Char} (h : Cut source blanks mark xs) (place last : Position) :
    Token.beforeEnding (Piece.placed place xs ++ [⟨.ending, last⟩]) = xs.map Piece.token := by
  unfold Token.beforeEnding
  rw [List.map_append, Piece.map_token_placed]
  refine Text.takeWhile_append_of_stops ?_ ?_
  · intro t ht
    obtain ⟨x, hx, rfl⟩ := List.mem_map.mp ht
    refine decide_eq_true fun hending => ?_
    have hspelled := (h.fit.mem hx).2
    rw [hending] at hspelled
    exact hspelled
  · intro t ht
    cases ht
    rfl

end Scanner

namespace Formula

/-- The expression of a formula is the one with the tokens of its pieces. -/
theorem parse_eq_ok_iff {source : String} {e : Expr} :
    parse source = .ok e ↔ e.IsFormula ∧ ∃ blanks mark xs,
      Scanner.Cut source.toList blanks mark xs ∧ e.tokens = xs.map Piece.token := by
  have hparse : parse source = .ok e ↔
      ∃ ts, Scanner.tokens source = .ok ts ∧ (Reader.ofTokens ts).read.1 = .ok e := by
    unfold parse
    cases Scanner.tokens source with
    | error stray => simp [Except.mapError, bind, Except.bind]
    | ok ts =>
      cases hread : (Reader.ofTokens ts).read.1 with
      | error cause => simp [Except.mapError, bind, Except.bind, hread]
      | ok d => simp [Except.mapError, bind, Except.bind, hread]
  rw [hparse]
  constructor
  · rintro ⟨ts, hscan, hread⟩
    obtain ⟨blanks, mark, xs, hcut⟩ := Scanner.exists_cut hscan
    obtain rfl := Except.ok.inj (hscan.symm.trans hcut.tokens_eq)
    obtain ⟨hformula, htokens⟩ := Reader.sound hread
    rw [hcut.beforeEnding_eq] at htokens
    exact ⟨hformula, blanks, mark, xs, hcut, htokens⟩
  · rintro ⟨hformula, blanks, mark, xs, hcut, htokens⟩
    refine ⟨_, hcut.tokens_eq, Reader.complete hformula ?_⟩
    rw [hcut.beforeEnding_eq, htokens]

end Formula

end FormulaTree
