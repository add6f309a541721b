import FormulaTree.Outline.Layout
import FormulaTree.Outline.Lines
import FormulaTree.Proofs.Expr.Layout
import FormulaTree.Proofs.Text.UpperCase

/-!
# The first line of a block

The first line of a block is its headline behind the indentation. The headline of an expression that
can be read starts with no blank, so a row of a call, which takes the first line without the blanks
in front of it, shows the whole headline and nothing else there.
-/

namespace FormulaTree

/-! ## Names in upper case -/

namespace Token

theorem toNat_lt_of_isNamePart {c : Char} (h : isNamePart c = true) : c.toNat < 0x80 := by
  simp only [isNamePart, Char.isAlphanum, Char.isAlpha, Char.isUpper, Char.isLower, Char.isDigit,
    Bool.or_eq_true, Bool.and_eq_true, decide_eq_true_eq, ge_iff_le, UInt32.le_iff_toNat_le] at h
  rcases h with (h | rfl) | rfl
  · simp at h
    have htoNat : c.toNat = c.val.toNat := rfl
    omega
  · decide
  · decide

/-- What upper case keeps of the letters of ASCII it keeps of all that names consist of. -/
theorem toUpper_of_isNamePart {p : Char → Bool} (hascii : ∀ n : Fin 0x80,
    p (Char.ofNat n) = true → p (Char.ofNat n).toUpper = true) {c : Char}
    (hc : isNamePart c = true) (h : p c = true) : p c.toUpper = true := by
  have hupper := hascii ⟨c.toNat, toNat_lt_of_isNamePart hc⟩
  rw [Char.ofNat_toNat] at hupper
  exact hupper h

theorem isNamePart_toUpper {c : Char} (h : isNamePart c = true) : isNamePart c.toUpper = true :=
  toUpper_of_isNamePart (by decide) h h

theorem startsName_toUpper {c : Char} (h : startsName c = true) : startsName c.toUpper = true :=
  toUpper_of_isNamePart (by decide) (isNamePart_of_startsName h) h

/-- The letters of a name are those of ASCII. -/
theorem upperCase_eq_toUpper {text : String} (h : (Token.name text).Spelled) :
    Text.upperCase text = text.toUpper := by
  have hchar : ∀ c ∈ text.toList, Text.upperChar c = [c.toUpper] := by
    intro c hc
    have hascii := toNat_lt_of_isNamePart (forall_isNamePart h c hc)
    exact Text.upperChar_of_ascii hascii
  apply String.toList_inj.mp
  rw [Text.toList_upperCase, List.flatMap_congr hchar, ← List.map_eq_flatMap, String.toUpper,
    String.toList_map]

/-- A name in upper case could be read as well. -/
theorem spelled_upperCase {text : String} (h : (Token.name text).Spelled) :
    (Token.name (Text.upperCase text)).Spelled := by
  have hupper := upperCase_eq_toUpper h
  obtain ⟨c, cs, htext, hc, hcs⟩ := h
  refine ⟨c.toUpper, cs.map Char.toUpper, ?_, startsName_toUpper hc, ?_⟩
  · rw [hupper, String.toUpper, String.toList_map, htext, List.map_cons]
  · intro d hd
    obtain ⟨b, hb, rfl⟩ := List.mem_map.mp hd
    exact isNamePart_toUpper (hcs b hb)

theorem isNamePart_upperCase {text : String} (h : (Token.name text).Spelled) :
    ∀ c ∈ (Text.upperCase text).toList, isNamePart c = true :=
  forall_isNamePart (spelled_upperCase h)

end Token

/-! ## Headlines -/

/-- Whether a text starts with a character that is no blank. -/
def Text.StartsSolid (s : String) : Prop :=
  ∃ c cs, s.toList = c :: cs ∧ isBlank c = false

theorem Text.StartsSolid.append {s : String} (h : StartsSolid s) (t : String) :
    StartsSolid (s ++ t) := by
  obtain ⟨c, cs, hs, hc⟩ := h
  exact ⟨c, cs ++ t.toList, by rw [String.toList_append, hs, List.cons_append], hc⟩

namespace Outline

theorem toList_indented (depth : Nat) (s : String) :
    (indented depth s).toList = List.replicate (2 * depth) ' ' ++ s.toList := by
  rw [indented, String.toList_append, Text.toList_copies]
  congr 1
  induction depth with
  | zero => rfl
  | succ depth ih =>
    rw [List.replicate_succ, List.flatten_cons, ih, Nat.mul_succ]
    rfl

/-- Trimming the first line of a block takes its indentation away and nothing else. -/
theorem trimStart_indented {s : String} (h : Text.StartsSolid s) (depth : Nat) :
    Text.trimStart (indented depth s) = s := by
  obtain ⟨c, cs, hs, hc⟩ := h
  have hspaces : ∀ d ∈ List.replicate (2 * depth) ' ', Text.isBlank d = true := by
    intro d hd
    rw [List.eq_of_mem_replicate hd]
    rfl
  have hstops : ∀ d ∈ s.toList.head?, Text.isBlank d = false := by
    intro d hd
    rw [hs] at hd
    cases hd
    exact hc
  rw [Text.trimStart, toList_indented, Text.dropWhile_append_of_stops hspaces hstops,
    String.ofList_toList]

end Outline

/-- The first line of a block without its indentation. -/
def Block.headline (isOpen : Nat → Bool) : Block → String
  | .line text => text
  | .paren _ | .binary _ _ _ => "("
  | .call id function preview _ => function ++ if isOpen id then "(" else preview

theorem Block.lines_eq (isOpen : Nat → Bool) (depth : Nat) (b : Block) :
    b.lines isOpen depth =
      Outline.indented depth (b.headline isOpen) :: (b.lines isOpen depth).tail := by
  cases b with
  | line _ | paren _ | binary _ _ _ => rfl
  | call id f preview rows =>
    rw [Block.lines, Block.headline]
    cases isOpen id <;> rfl

mutual

/-- Whether no headline in a block starts with a blank. -/
def Block.Solid : Block → Prop
  | .line text => Text.StartsSolid text
  | .paren inner => inner.Solid
  | .binary left _ right => left.Solid ∧ right.Solid
  | .call _ function _ rows => Text.StartsSolid function ∧ rows.Solid

def Rows.Solid : Rows → Prop
  | .nil => True
  | .cons _ value rest => value.Solid ∧ rest.Solid

end

theorem Block.Solid.headline {b : Block} (h : b.Solid) (isOpen : Nat → Bool) :
    Text.StartsSolid (b.headline isOpen) := by
  cases b with
  | line _ => exact h
  | paren _ | binary _ _ _ =>
    show Text.StartsSolid "("
    exact ⟨'(', [], rfl, rfl⟩
  | call _ _ _ _ => exact h.1.append _

theorem Text.startsSolid_upperCase {f : String} (h : (Token.name f).Spelled) :
    StartsSolid (upperCase f) := by
  obtain ⟨c, cs, hf, hc, -⟩ := Token.spelled_upperCase h
  exact ⟨c, cs, hf, Expr.isBlank_of_isNamePart (Token.isNamePart_of_startsName hc)⟩

/-! ## The block of an expression that can be read -/

namespace Expr

mutual

theorem solid_ofExpr (label : String → Nat → String) (first : Nat) : (e : Expr) →
    (∀ t ∈ e.tokens, t.Spelled) → (Block.ofExpr label first e).Solid
  | .number _, h | .string _, h | .name _, h | .unary _ _, h => by
    obtain ⟨c, cs, hfirst, hc, -⟩ := exists_first _ h
    exact ⟨c, cs, hfirst, hc⟩
  | .binary left o right, h => by
    rw [tokens, List.forall_mem_append, List.forall_mem_cons] at h
    exact ⟨solid_ofExpr label _ left h.1, solid_ofExpr label _ right h.2.2⟩
  | .paren inner, h => by
    rw [tokens, List.forall_mem_cons, List.forall_mem_append] at h
    exact solid_ofExpr label _ inner h.2.1
  | .call f args, h => by
    rw [tokens, List.forall_mem_cons, List.forall_mem_cons, List.forall_mem_append] at h
    have hargs : ∀ a ∈ args, ∀ t ∈ a.tokens, t.Spelled :=
      fun a ha t ht => h.2.2.1 t (mem_argTokens ht ha)
    exact ⟨Text.startsSolid_upperCase h.1, solid_ofArgs label _ 0 _ args hargs⟩

theorem solid_ofArgs (label : String → Nat → String) (function : String) (index first : Nat) :
    (es : List Expr) → (∀ e ∈ es, ∀ t ∈ e.tokens, t.Spelled) →
      (Rows.ofArgs label function index first es).Solid
  | [], _ => trivial
  | e :: es, h => by
    rw [List.forall_mem_cons] at h
    exact ⟨solid_ofExpr label first e h.1, solid_ofArgs label function _ _ es h.2⟩

end

end Expr

namespace Outline

/-- A row of a call before its value: bars, the label and the gutter. -/
def rowStart (depth : Nat) (label : String) : String :=
  Text.copies (depth + 1) "| " ++ Text.padRight labelWidth label ++ gutter

/-- The lines of a row of a call, whose value is a block. -/
theorem rowLines_lines {b : Block} (h : b.Solid) (isOpen : Nat → Bool) (depth : Nat)
    (label : String) :
    rowLines depth label (b.lines isOpen (depth + 1)) =
      (rowStart depth label ++ b.headline isOpen) ::
        (b.lines isOpen (depth + 1)).tail.map (rowStart depth "" ++ ·) := by
  rw [b.lines_eq, rowLines, trimStart_indented (h.headline isOpen)]
  rfl

end Outline

end FormulaTree
