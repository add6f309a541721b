import FormulaTree.Position
import Mathlib

/-!
# Places in a text, counted

Walking through a text from its first character comes to the place that counting gives: the line
counts the line feeds in front, the column the characters behind the last of them. Places grow on
the way. A place that is counted from the start of a part of a text can be told in the whole text.
-/

namespace FormulaTree.Position

/-- The place just behind the characters `cs`, which start a text. -/
def behind (cs : List Char) : Position :=
  ⟨1 + cs.count '\n', 1 + (cs.reverse.takeWhile (· ≠ '\n')).length⟩

theorem next_behind (cs : List Char) (c : Char) : (behind cs).next c = behind (cs ++ [c]) := by
  unfold next behind
  by_cases h : c = '\n'
  · subst h
    rw [if_pos rfl, List.count_append, List.count_singleton_self, List.reverse_append,
      List.reverse_singleton, List.singleton_append, List.takeWhile_cons_of_neg (by simp)]
    simp only [List.length_nil, Nat.add_assoc, Nat.add_zero]
  · rw [if_neg h, List.count_append, List.count_singleton, List.reverse_append,
      List.reverse_singleton, List.singleton_append, List.takeWhile_cons_of_pos (by simpa using h)]
    have hne : (c == '\n') = false := by simpa using h
    simp only [hne, Bool.false_eq_true, if_false, List.length_cons, Nat.add_zero, Nat.add_assoc]

theorem after_start (cs : List Char) : start.after cs = behind cs := by
  induction cs using List.reverseRecOn with
  | nil => rfl
  | append_singleton cs c ih =>
    rw [after_append, ih, after_cons, after_nil, next_behind]

/-- Reading order. -/
instance : LT Position where
  lt p q := p.line < q.line ∨ p.line = q.line ∧ p.column < q.column

theorem lt_iff {p q : Position} :
    p < q ↔ p.line < q.line ∨ p.line = q.line ∧ p.column < q.column :=
  Iff.rfl

protected theorem lt_trans {p q r : Position} (hpq : p < q) (hqr : q < r) : p < r := by
  rw [lt_iff] at *
  omega

theorem lt_next (p : Position) (c : Char) : p < p.next c := by
  unfold next
  rw [lt_iff]
  split
  · exact Or.inl (Nat.lt_succ_self _)
  · exact Or.inr ⟨rfl, Nat.lt_succ_self _⟩

theorem lt_after {cs : List Char} (p : Position) (hne : cs ≠ []) : p < p.after cs := by
  induction cs generalizing p with
  | nil => exact absurd rfl hne
  | cons c cs ih =>
    rw [after_cons]
    by_cases hcs : cs = []
    · rw [hcs, after_nil]
      exact lt_next p c
    · exact Position.lt_trans (lt_next p c) (ih (p.next c) hcs)

theorem lt_after_of_lt {p q : Position} {cs : List Char} (h : q < p) : q < p.after cs := by
  by_cases hcs : cs = []
  · rw [hcs, after_nil]
    exact h
  · exact Position.lt_trans h (lt_after p hcs)

/-! ## Parts of a text -/

/-- The place in a text of what stands at `p` in the part of it that starts at `base`. What is in
front of the part counts for columns on its first line only. -/
def within (base p : Position) : Position :=
  if p.line = 1 then ⟨base.line, base.column + (p.column - 1)⟩
  else ⟨base.line + (p.line - 1), p.column⟩

/-- Whether lines and columns count from 1. -/
structure IsPlace (p : Position) : Prop where
  line_pos : 1 ≤ p.line
  column_pos : 1 ≤ p.column

theorem isPlace_start : start.IsPlace :=
  ⟨Nat.le_refl 1, Nat.le_refl 1⟩

variable {p : Position}

theorem IsPlace.next (h : p.IsPlace) (c : Char) : (p.next c).IsPlace := by
  have hline := h.line_pos
  unfold Position.next
  split
  · exact ⟨by show 1 ≤ p.line + 1; omega, Nat.le_refl 1⟩
  · exact ⟨hline, by show 1 ≤ p.column + 1; omega⟩

theorem IsPlace.after (h : p.IsPlace) (cs : List Char) : (p.after cs).IsPlace := by
  induction cs generalizing p with
  | nil => exact h
  | cons c cs ih => exact ih (h.next c)

theorem within_start (base : Position) : base.within start = base := rfl

theorem within_next (base : Position) (h : p.IsPlace) (c : Char) :
    base.within (p.next c) = (base.within p).next c := by
  have hline := h.line_pos
  have hcolumn := h.column_pos
  unfold within next
  by_cases hc : c = '\n'
  · have hne : p.line + 1 ≠ 1 := by omega
    simp only [if_pos hc, if_neg hne]
    split <;> simp only [mk.injEq, and_true] <;> omega
  · simp only [if_neg hc]
    split
    · simp only [mk.injEq, true_and]
      omega
    · rfl

theorem within_after (base : Position) (h : p.IsPlace) (cs : List Char) :
    base.within (p.after cs) = (base.within p).after cs := by
  induction cs generalizing p with
  | nil => rfl
  | cons c cs ih =>
    show base.within ((p.next c).after cs) = ((base.within p).next c).after cs
    rw [ih (h.next c), within_next base h]

/-- A place stays as it is behind `front` when it is on a later line and `front` is on one line, or
when there is nothing in front. -/
theorem within_behind_eq_iff (h : start.within p = p) (front : List Char) :
    (behind front).within p = p ↔ '\n' ∉ front ∧ (p.line = 1 → front = []) := by
  have hcount : front.count '\n' = 0 ↔ '\n' ∉ front := List.count_eq_zero
  obtain ⟨line, column⟩ := p
  by_cases hline : line = 1
  · simp only [within, if_pos hline, behind, start, mk.injEq] at h ⊢
    constructor
    · rintro ⟨hfeeds, hcolumns⟩
      have hnone : '\n' ∉ front := hcount.mp (by omega)
      have hall : front.reverse.takeWhile (· ≠ '\n') = front.reverse := by
        apply List.takeWhile_eq_self_iff.mpr
        intro c hc
        have hne : c ≠ '\n' := fun heq => hnone (heq ▸ List.mem_reverse.mp hc)
        simpa using hne
      rw [hall, List.length_reverse] at hcolumns
      exact ⟨hnone, fun _ => List.eq_nil_of_length_eq_zero (by omega)⟩
    · rintro ⟨-, hnil⟩
      rw [hnil hline]
      exact h
  · simp only [within, if_neg hline, behind, start, mk.injEq, and_true] at h ⊢
    rw [← hcount]
    constructor
    · exact fun hfeeds => ⟨by omega, fun hone => absurd hone hline⟩
    · exact fun hfeeds => by omega

end FormulaTree.Position
