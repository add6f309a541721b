import FormulaTree.Proofs.Expr.Layout
import FormulaTree.Proofs.Formula

/-!
# Reading back the one-line form

What is read from a formula is canonical, and a canonical expression is read back from its one-line
form, which is cut into the pieces that it was made of.
-/

namespace FormulaTree

/-- The expressions that a formula can have: names, numbers and strings are ones that can be read,
and the grammar has the whole within the limits. -/
structure Expr.Canonical (e : Expr) : Prop extends e.IsFormula where
  spelled : ∀ t ∈ e.tokens, t.Spelled

namespace Expr.Canonical

theorem paren {inner : Expr} (h : (Expr.paren inner).Canonical) : inner.Canonical := by
  have hspelled := h.spelled
  have hnesting := h.nesting_le
  rw [tokens, List.forall_mem_cons, List.forall_mem_append] at hspelled
  rw [nesting] at hnesting
  exact ⟨⟨h.fits, by omega, h.operatorCount_le⟩, hspelled.2.1⟩

theorem left {left right : Expr} {o : BinaryOp} (h : (Expr.binary left o right).Canonical) :
    left.Canonical := by
  have hspelled := h.spelled
  have hnesting := h.nesting_le
  have hoperators := h.operatorCount_le
  rw [tokens, List.forall_mem_append] at hspelled
  rw [nesting] at hnesting
  rw [operatorCount] at hoperators
  exact ⟨⟨h.fits.2.1.mono o.one_le_precedence, by omega, by omega⟩, hspelled.1⟩

theorem right {left right : Expr} {o : BinaryOp} (h : (Expr.binary left o right).Canonical) :
    right.Canonical := by
  have hspelled := h.spelled
  have hnesting := h.nesting_le
  have hoperators := h.operatorCount_le
  rw [tokens, List.forall_mem_append, List.forall_mem_cons] at hspelled
  rw [nesting] at hnesting
  rw [operatorCount] at hoperators
  exact ⟨⟨h.fits.2.2.mono (by omega), by omega, by omega⟩, hspelled.2.2⟩

theorem args {f : String} {args : List Expr} (h : (Expr.call f args).Canonical) :
    ∀ e ∈ args, e.Canonical := by
  intro e he
  have hspelled := h.spelled
  have hnesting : nestingAll args + 1 ≤ maxNesting := h.nesting_le
  have hoperators : operatorCountAll args ≤ maxOperators := h.operatorCount_le
  have hle := operatorCount_le_of_mem he
  rw [tokens, List.forall_mem_cons, List.forall_mem_cons, List.forall_mem_append] at hspelled
  refine ⟨⟨fitAll_iff.mp h.fits e he, ?_, by omega⟩, fun t ht => ?_⟩
  · exact nestingAll_le_iff.mp (by omega) e he
  · exact hspelled.2.2.1 t (mem_argTokens ht he)

end Expr.Canonical

namespace Scanner

/-- The one-line form of an expression is cut into its pieces. -/
theorem cut_oneLine {e : Expr} (hspelled : ∀ t ∈ e.tokens, t.Spelled) :
    Cut e.oneLine.toList [] [] (e.pieces []) := by
  have htext : Piece.text (e.pieces []) = e.oneLine.toList := Expr.text_pieces [] e
  obtain ⟨c, cs, hfirst, hblank, hmark⟩ := Expr.exists_first e hspelled
  refine ⟨?_, by simp, ?_, Or.inr ⟨rfl, ?_⟩, Expr.fit_pieces (by simp) (by simp) e hspelled⟩
  · rw [Text.dropBlanksRight_of_endsSolid (Expr.endsSolid_oneLine e hspelled), htext]
    rfl
  · intro d hd
    rw [List.nil_append, htext, hfirst] at hd
    cases hd
    exact hblank
  · rw [htext, hfirst, List.head?_cons]
    exact fun heq => hmark (Option.some.inj heq)

end Scanner

namespace Formula

theorem canonical_of_parse {source : String} {e : Expr} (h : parse source = .ok e) :
    e.Canonical := by
  obtain ⟨hformula, blanks, mark, xs, hcut, htokens⟩ := parse_eq_ok_iff.mp h
  refine ⟨hformula, fun t ht => ?_⟩
  rw [htokens] at ht
  obtain ⟨x, hx, rfl⟩ := List.mem_map.mp ht
  exact (hcut.fit.mem hx).2

theorem parse_oneLine {e : Expr} (h : e.Canonical) : parse e.oneLine = .ok e := by
  refine parse_eq_ok_iff.mpr ⟨h.toIsFormula, [], [], e.pieces [], ?_, ?_⟩
  · exact Scanner.cut_oneLine h.spelled
  · rw [Expr.map_token_pieces]

theorem eq_of_oneLine {e e' : Expr} (h : e.Canonical) (h' : e'.Canonical)
    (heq : e.oneLine = e'.oneLine) : e = e' := by
  have hparse := parse_oneLine h
  rw [heq, parse_oneLine h'] at hparse
  exact (Except.ok.inj hparse).symm

/-- The one-line form encodes the expressions of formulas faithfully. -/
theorem oneLine_faithful :
    (∀ source e, parse source = .ok e → e.Canonical) ∧
    (∀ e : Expr, e.Canonical → parse e.oneLine = .ok e) ∧
    (∀ source e, parse source = .ok e → parse e.oneLine = .ok e) ∧
    ∀ source line, oneLine source = .ok line → oneLine line = .ok line := by
  have hback : ∀ source e, parse source = .ok e → parse e.oneLine = .ok e :=
    fun source e h => parse_oneLine (canonical_of_parse h)
  refine ⟨fun source e h => canonical_of_parse h, fun e h => parse_oneLine h, hback, ?_⟩
  intro source line h
  unfold oneLine at h
  cases hparse : parse source with
  | error cause =>
    rw [hparse] at h
    exact absurd h (by simp [Except.map])
  | ok e =>
    rw [hparse] at h
    cases h
    rw [oneLine, hback source e hparse]
    rfl

/-- A gap before the parenthesis of a call, signs, dots, and a string without its closing quote. -/
example : oneLine " = F ( --1.2.3 )<>\"a\n+b \t" = .ok "F(--1.2.3) <> \"a\n+b\"" := by
  cbv

end Formula

end FormulaTree
