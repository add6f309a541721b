import FormulaTree.Proofs.Expr.Layout

/-!
# The one-line form is one line

A string may have line feeds in it, so a one-line form ends with the first line feed outside of its
strings. Its last character tells it from the first line of what takes more lines.
-/

namespace FormulaTree

/-! ## Lines of a text -/

namespace Text

/-- A text without a line feed outside of quotes, in which every quote is closed. -/
inductive SingleLine : List Char → Prop where
  | nil : SingleLine []
  | char {c : Char} {cs : List Char} (notQuote : c ≠ '"') (notNewline : c ≠ '\n')
      (rest : SingleLine cs) : SingleLine (c :: cs)
  | quoted {contents cs : List Char} (quoteless : '"' ∉ contents) (rest : SingleLine cs) :
      SingleLine ('"' :: (contents ++ '"' :: cs))

theorem SingleLine.append {cs ds : List Char} (h : SingleLine cs) (hds : SingleLine ds) :
    SingleLine (cs ++ ds) := by
  induction h with
  | nil => exact hds
  | char notQuote notNewline _ ih => exact .char notQuote notNewline ih
  | quoted quoteless _ ih =>
    rw [List.cons_append, List.append_assoc, List.cons_append]
    exact .quoted quoteless ih

/-- Whether a character is neither a quote nor a line feed. -/
def isPlain (c : Char) : Bool :=
  c ≠ '"' && c ≠ '\n'

theorem singleLine_of_all {cs : List Char} (h : cs.all isPlain = true) : SingleLine cs := by
  induction cs with
  | nil => exact .nil
  | cons c cs ih =>
    simp only [List.all_cons, Bool.and_eq_true, isPlain, decide_eq_true_eq] at h
    exact .char h.1.1 h.1.2 (ih h.2)

/-- Whether a text is at the end of a line. -/
def AtLineEnd (cs : List Char) : Prop :=
  ∀ c ∈ cs.head?, c = '\n'

/-- A line is known from the text that starts with it: it ends with the first line feed that stands
in no string. -/
theorem SingleLine.append_inj {cs ds more more' : List Char} (h : SingleLine cs)
    (h' : SingleLine ds) (hmore : AtLineEnd more) (hmore' : AtLineEnd more')
    (heq : cs ++ more = ds ++ more') : cs = ds ∧ more = more' := by
  induction h generalizing ds with
  | nil =>
    cases h' with
    | nil => exact ⟨rfl, heq⟩
    | char _ notNewline _ =>
      rw [List.nil_append] at heq
      exact absurd (hmore _ (by rw [heq]; rfl)) notNewline
    | quoted _ _ =>
      have hnewline : '"' = '\n' := by
        apply hmore
        rw [List.nil_append] at heq
        rw [heq]
        rfl
      exact absurd hnewline (by decide)
  | char notQuote notNewline _ ih =>
    cases h' with
    | nil =>
      rw [List.nil_append] at heq
      exact absurd (hmore' _ (by rw [← heq]; rfl)) notNewline
    | char _ _ rest' =>
      obtain ⟨rfl, hrest⟩ := List.cons.inj heq
      obtain ⟨rfl, hmores⟩ := ih rest' hrest
      exact ⟨rfl, hmores⟩
    | quoted _ _ => exact absurd (List.cons.inj heq).1 notQuote
  | quoted quoteless _ ih =>
    cases h' with
    | nil =>
      rw [List.nil_append] at heq
      have hnewline : '"' = '\n' := by
        apply hmore'
        rw [← heq]
        rfl
      exact absurd hnewline (by decide)
    | char notQuote _ _ => exact absurd (List.cons.inj heq).1.symm notQuote
    | quoted quoteless' rest' =>
      rw [List.cons_append, List.cons_append, List.append_assoc, List.append_assoc,
        List.cons_append, List.cons_append] at heq
      have htail := (List.cons.inj heq).2
      -- Both strings end with the first quote in them.
      obtain ⟨rfl, hrest⟩ := append_cons_inj quoteless quoteless' htail
      obtain ⟨rfl, hmores⟩ := ih rest' hrest
      exact ⟨rfl, hmores⟩

theorem singleLine_intercalate {ss : List String} (h : ∀ s ∈ ss, SingleLine s.toList) :
    SingleLine (", ".intercalate ss).toList := by
  have hcomma : SingleLine ", ".toList := singleLine_of_all rfl
  cases ss with
  | nil => exact .nil
  | cons s ss =>
    rw [List.forall_mem_cons] at h
    rw [Expr.toList_intercalate_cons]
    apply h.1.append
    induction ss with
    | nil => exact .nil
    | cons t ts ih =>
      have ht := List.forall_mem_cons.mp h.2
      rw [List.flatMap_cons]
      exact (hcomma.append ht.1).append (ih ⟨h.1, ht.2⟩)

end Text

namespace Expr

open Text (SingleLine isPlain singleLine_of_all singleLine_intercalate)

theorem ne_of_part {p : Char → Bool} {c d : Char} (hc : p c = true) (hd : p d = false) : c ≠ d := by
  rintro rfl
  rw [hc] at hd
  exact absurd hd (by decide)

theorem singleLine_of_parts {p : Char → Bool} {cs : List Char} (hparts : ∀ c ∈ cs, p c = true)
    (hquote : p '"' = false) (hnewline : p '\n' = false) : SingleLine cs := by
  apply singleLine_of_all
  rw [List.all_eq_true]
  intro c hc
  have hpart := hparts c hc
  simp only [isPlain, Bool.and_eq_true, decide_eq_true_eq]
  exact ⟨ne_of_part hpart hquote, ne_of_part hpart hnewline⟩

theorem singleLine_symbol (o : BinaryOp) : SingleLine o.symbol.toList := by
  apply singleLine_of_all
  cases o <;> rfl

mutual

/-- The one-line form is one line. -/
theorem singleLine_oneLine : (e : Expr) → (∀ t ∈ e.tokens, t.Spelled) → SingleLine e.oneLine.toList
  | .number text, h =>
    singleLine_of_parts (Token.forall_isNumberPart (h _ List.mem_cons_self)) (by decide) (by decide)
  | .name text, h =>
    singleLine_of_parts (Token.forall_isNamePart (h _ List.mem_cons_self)) (by decide) (by decide)
  | .string contents, h => by
    have hspelled : '"' ∉ contents.toList := h _ List.mem_cons_self
    rw [oneLine, String.toList_append, String.toList_append, List.append_assoc]
    exact .quoted hspelled .nil
  | .unary sign operand, h => by
    rw [tokens, List.forall_mem_cons] at h
    have hsign : SingleLine sign.symbol.toList := by
      apply singleLine_of_all
      cases sign <;> rfl
    rw [oneLine, String.toList_append]
    exact hsign.append (singleLine_oneLine operand h.2)
  | .binary left o right, h => by
    rw [tokens, List.forall_mem_append, List.forall_mem_cons] at h
    have hspace : SingleLine " ".toList := singleLine_of_all rfl
    simp only [oneLine, String.toList_append]
    exact ((((singleLine_oneLine left h.1).append hspace).append (singleLine_symbol o)).append
      hspace).append (singleLine_oneLine right h.2.2)
  | .paren inner, h => by
    rw [tokens, List.forall_mem_cons, List.forall_mem_append] at h
    have hopen : SingleLine "(".toList := singleLine_of_all rfl
    have hclose : SingleLine ")".toList := singleLine_of_all rfl
    simp only [oneLine, String.toList_append]
    exact (hopen.append (singleLine_oneLine inner h.2.1)).append hclose
  | .call f args, h => by
    rw [tokens, List.forall_mem_cons, List.forall_mem_cons, List.forall_mem_append] at h
    have hf : SingleLine f.toList :=
      singleLine_of_parts (Token.forall_isNamePart h.1) (by decide) (by decide)
    have hopen : SingleLine "(".toList := singleLine_of_all rfl
    have hclose : SingleLine ")".toList := singleLine_of_all rfl
    have hargs := singleLine_oneLines args fun e he t ht => h.2.2.1 t (mem_argTokens ht he)
    simp only [oneLine, String.toList_append]
    exact hf.append ((hopen.append (singleLine_intercalate hargs)).append hclose)

theorem singleLine_oneLines : (es : List Expr) → (∀ e ∈ es, ∀ t ∈ e.tokens, t.Spelled) →
    ∀ s ∈ oneLines es, SingleLine s.toList
  | [], _, _, hs => absurd hs List.not_mem_nil
  | e :: es, h, s, hs => by
    rw [List.forall_mem_cons] at h
    rw [oneLines, List.mem_cons] at hs
    rcases hs with rfl | hs
    · exact singleLine_oneLine e h.1
    · exact singleLine_oneLines es h.2 s hs

end

theorem exists_last_of_parts {p : Char → Bool} {cs : List Char} (hne : cs ≠ [])
    (hparts : ∀ c ∈ cs, p c = true) (hp : p '(' = false) :
    ∃ c, cs.getLast? = some c ∧ c ≠ '(' := by
  have hlast : p (cs.getLast hne) = true := hparts _ (List.getLast_mem hne)
  exact ⟨_, List.getLast?_eq_some_getLast hne, ne_of_part hlast hp⟩

/-- The one-line form does not end with an opening parenthesis. -/
theorem getLast?_oneLine : (e : Expr) → (∀ t ∈ e.tokens, t.Spelled) →
    ∃ c, e.oneLine.toList.getLast? = some c ∧ c ≠ '('
  | .number text, h =>
    exists_last_of_parts (oneLine_ne_nil h) (Token.forall_isNumberPart (h _ List.mem_cons_self))
      (by decide)
  | .name text, h =>
    exists_last_of_parts (oneLine_ne_nil h) (Token.forall_isNamePart (h _ List.mem_cons_self))
      (by decide)
  | .string contents, _ => by
    rw [oneLine, String.toList_append, List.getLast?_append]
    exact ⟨'"', rfl, by decide⟩
  | .unary sign operand, h => by
    rw [tokens, List.forall_mem_cons] at h
    obtain ⟨c, hlast, hc⟩ := getLast?_oneLine operand h.2
    rw [oneLine, String.toList_append, List.getLast?_append, hlast]
    exact ⟨c, rfl, hc⟩
  | .binary left o right, h => by
    rw [tokens, List.forall_mem_append, List.forall_mem_cons] at h
    obtain ⟨c, hlast, hc⟩ := getLast?_oneLine right h.2.2
    rw [oneLine, String.toList_append, List.getLast?_append, hlast]
    exact ⟨c, rfl, hc⟩
  | .paren inner, _ => by
    rw [oneLine, String.toList_append, List.getLast?_append]
    exact ⟨')', rfl, by decide⟩
  | .call f args, _ => by
    rw [oneLine, String.toList_append, String.toList_append, ← List.append_assoc,
      List.getLast?_append]
    exact ⟨')', rfl, by decide⟩

end Expr

end FormulaTree
