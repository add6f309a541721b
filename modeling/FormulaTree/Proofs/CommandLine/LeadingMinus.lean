import FormulaTree.Proofs.CommandLine.Writing

/-!
# Formulas that start with minus signs

An argument is told from an option by the character behind its minus sign. What has two minus signs
in front is refused before that: it is no option that there is, and the second sign is not looked at
as one of the characters that continue a formula, although it is one of them.
-/

namespace FormulaTree.CommandLine

/-- Whether a character behind minus signs belongs to a formula and to no option. -/
def marksFormula (c : Char) : Bool :=
  c.isDigit || c = '.' || c = '(' || c = '$'

theorem isAlpha_of_marksFormula {c : Char} (h : marksFormula c = true) : c.isAlpha = false := by
  simp only [marksFormula, Bool.or_eq_true, decide_eq_true_eq] at h
  rcases h with ((hdigit | rfl) | rfl) | rfl
  · grind [Char.isDigit, Char.isAlpha, Char.isUpper, Char.isLower]
  · rfl
  · rfl
  · rfl

theorem ne_of_marksFormula {c d : Char} (h : marksFormula c = true)
    (hd : marksFormula d = false) : c ≠ d := by
  rintro rfl
  exact absurd (h.symm.trans hd) (by decide)

namespace Argument

theorem after?_of_minus {text : String} {c : Char} {cs : List Char}
    (h : text.toList = '-' :: c :: cs) (hc : c ≠ '-') (option : String)
    {more : List Char} (hoption : option.toList = '-' :: '-' :: more) :
    after? option text = none := by
  have hne : ('-' == c) = false := beq_false_of_ne hc.symm
  rw [after?, hoption, h]
  simp [List.isPrefixOf?, hne]

theorem ofText_of_minus {text : String} {c : Char} {cs : List Char}
    (h : text.toList = '-' :: c :: cs) (hc : marksFormula c = true) : ofText text = .formula := by
  have hminus : c ≠ '-' := ne_of_marksFormula hc rfl
  have hl : c ≠ 'l' := ne_of_marksFormula hc rfl
  have hm : c ≠ 'm' := ne_of_marksFormula hc rfl
  have hcontinues : continuesFormula c = true := by
    rw [continuesFormula, Bool.or_eq_true]
    exact .inl hc
  have hoption (option : String) {more : List Char} (hstart : option.toList = '-' :: '-' :: more) :
      after? option text = none := after?_of_minus h hminus option hstart
  rw [ofText, hoption "--lang=" rfl, hoption "--labels=" rfl, hoption "--label-table=" rfl, h]
  -- All rows of the match but that of the formula are for other second characters.
  simp only
  split <;> simp_all

/-- The options with two minus signs that have a value attached all go on with the same letter. -/
theorem ofText_of_minuses {text : String} {c : Char} {cs : List Char}
    (h : text.toList = '-' :: '-' :: c :: cs) (hc : c ≠ 'l') : ofText text = .unknown := by
  have hne : ('l' == c) = false := beq_false_of_ne hc.symm
  simp [ofText, after?, h, List.isPrefixOf?, hne]

theorem ofString_of_marksFormula {text : String} {c : Char} (hmem : c ∈ text.toList)
    (hc : marksFormula c = true) : ofString text = ofText text :=
  ofString_eq_ofText_of_mem hmem (isAlpha_of_marksFormula hc) (ne_of_marksFormula hc rfl)

theorem ofString_minuses {c : Char} (hc : marksFormula c = true) (signs : Nat) (cs : List Char) :
    ofString (String.ofList (List.replicate (signs + 1) '-' ++ c :: cs)) =
      if signs = 0 then formula else unknown := by
  generalize htext : String.ofList (List.replicate (signs + 1) '-' ++ c :: cs) = text
  have hlist : text.toList = List.replicate (signs + 1) '-' ++ c :: cs := by
    rw [← htext, String.toList_ofList]
  have hmem : c ∈ text.toList := by
    rw [hlist]
    exact List.mem_append_right _ List.mem_cons_self
  rw [ofString_of_marksFormula hmem hc]
  -- One sign leaves the choice to the next character, two refuse the text, whatever follows.
  match signs with
  | 0 => exact ofText_of_minus hlist hc
  | 1 => exact ofText_of_minuses hlist (ne_of_marksFormula hc rfl)
  | signs + 2 =>
    have hthree : text.toList = '-' :: '-' :: '-' :: (List.replicate signs '-' ++ c :: cs) := hlist
    exact ofText_of_minuses hthree (by decide)

end Argument

/-- A formula that starts with one minus sign can be given as it is. One that starts with more of
them is refused as an option that does not exist. -/
theorem leading_minus_read {c : Char} (hc : marksFormula c = true) (signs : Nat)
    (cs : List Char) :
    let text := String.ofList (List.replicate (signs + 1) '-' ++ c :: cs)
    Invocation.ofArguments [text] =
      if signs = 0 then .ok (.run { formula := some text }) else .error (.unknownOption text) := by
  intro text
  have hpart : Argument.ofString text = if signs = 0 then .formula else .unknown :=
    Argument.ofString_minuses hc signs cs
  rw [Invocation.ofArguments, Invocation.read, hpart]
  by_cases hsigns : signs = 0
  · rw [if_pos hsigns, if_pos hsigns]
    rfl
  · rw [if_neg hsigns, if_neg hsigns]

theorem leading_minus_read_of_reference :
    marksFormula '$' = true ∧
      Invocation.ofArguments ["-$l$1--help"] = .ok (.run { formula := some "-$l$1--help" }) :=
  ⟨rfl, leading_minus_read rfl 0 ['l', '$', '1', '-', '-', 'h', 'e', 'l', 'p']⟩

/-- A formula that is negated twice is refused, although a second minus sign is among the characters
that continue a formula. -/
theorem negated_twice_refused :
    let text := "--(A1>0)"
    text = String.ofList (List.replicate 2 '-' ++ '(' :: "A1>0)".toList) ∧
      marksFormula '(' = true ∧ Argument.continuesFormula '-' = true ∧
      Invocation.ofArguments [text] = .error (.unknownOption text) ∧
      Invocation.ofArguments [text] ≠ .ok (.run { formula := some text }) := by
  intro text
  have hrefused : Invocation.ofArguments [text] = .error (.unknownOption text) := by decide
  refine ⟨rfl, rfl, rfl, hrefused, ?_⟩
  rw [hrefused]
  exact fun h => nomatch h

end FormulaTree.CommandLine
