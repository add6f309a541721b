import FormulaTree.Text.Blank
import Mathlib

/-!
# Runs of characters

A run of characters of one kind at the front of a text, and the blanks at both ends of it.
-/

namespace FormulaTree.Text

theorem takeWhile_append_of_stops {α : Type} {p : α → Bool} {run more : List α}
    (hrun : ∀ c ∈ run, p c = true) (hstops : ∀ c ∈ more.head?, p c = false) :
    (run ++ more).takeWhile p = run := by
  rw [List.takeWhile_append_of_pos hrun]
  cases more with
  | nil => rw [List.takeWhile_nil, List.append_nil]
  | cons c more =>
    have hc : p c = false := hstops c rfl
    rw [List.takeWhile_cons_of_neg (by rw [hc]; exact Bool.false_ne_true), List.append_nil]

theorem dropWhile_append_of_stops {α : Type} {p : α → Bool} {run more : List α}
    (hrun : ∀ c ∈ run, p c = true) (hstops : ∀ c ∈ more.head?, p c = false) :
    (run ++ more).dropWhile p = more := by
  rw [List.dropWhile_append_of_pos hrun]
  cases more with
  | nil => rfl
  | cons c more =>
    have hc : p c = false := hstops c rfl
    rw [List.dropWhile_cons_of_neg (by rw [hc]; exact Bool.false_ne_true)]

/-- Every text starts with a run, which may be empty. -/
theorem exists_run (p : Char → Bool) (cs : List Char) :
    ∃ run more, cs = run ++ more ∧ cs.takeWhile p = run ∧ (∀ c ∈ run, p c = true) ∧
      ∀ c ∈ more.head?, p c = false := by
  refine ⟨cs.takeWhile p, cs.dropWhile p, List.takeWhile_append_dropWhile.symm, rfl, ?_, ?_⟩
  · intro c hc
    exact List.mem_takeWhile_imp hc
  · intro c hc
    have hhead := List.head?_dropWhile_not p cs
    rw [Option.mem_def.mp hc] at hhead
    exact hhead

/-- What stands in front of a character is known from the text, if the character does not stand
there as well. -/
theorem append_cons_inj {stop : Char} {cs ds more more' : List Char} (h : stop ∉ cs)
    (h' : stop ∉ ds) (heq : cs ++ stop :: more = ds ++ stop :: more') : cs = ds ∧ more = more' := by
  have hrun (xs : List Char) (hxs : stop ∉ xs) (ys : List Char) :
      (xs ++ stop :: ys).takeWhile (· ≠ stop) = xs := by
    apply takeWhile_append_of_stops
    · intro c hc
      exact decide_eq_true fun hstop => hxs (hstop ▸ hc)
    · intro c hc
      cases hc
      simp
  have hcs : cs = ds := by
    rw [← hrun cs h more, heq, hrun ds h' more']
  rw [hcs] at heq
  exact ⟨hcs, (List.cons.inj (List.append_cancel_left heq)).2⟩

/-! ## Blanks at the ends -/

/-- A text with no blank at its end. -/
def EndsSolid (cs : List Char) : Prop :=
  ∀ c ∈ cs.getLast?, isBlank c = false

theorem endsSolid_of_forall_mem {cs : List Char} (h : ∀ c ∈ cs, isBlank c = false) :
    EndsSolid cs := by
  intro c hc
  exact h c (List.mem_of_getLast? hc)

theorem EndsSolid.append_left {cs : List Char} (h : EndsSolid cs) (hne : cs ≠ [])
    (front : List Char) : EndsSolid (front ++ cs) := by
  intro c hc
  rw [List.getLast?_append_of_ne_nil front hne] at hc
  exact h c hc

theorem endsSolid_concat (cs : List Char) {c : Char} (hc : isBlank c = false) :
    EndsSolid (cs ++ [c]) := by
  refine EndsSolid.append_left ?_ (List.cons_ne_nil c []) cs
  exact endsSolid_of_forall_mem fun d hd => List.mem_singleton.mp hd ▸ hc

theorem dropBlanksRight_append (cs : List Char) {back : List Char}
    (hback : ∀ c ∈ back, isBlank c = true) :
    dropBlanksRight (cs ++ back) = dropBlanksRight cs := by
  unfold dropBlanksRight
  rw [List.reverse_append, List.dropWhile_append_of_pos fun c hc => hback c (List.mem_reverse.mp hc)]

theorem dropBlanksRight_of_endsSolid {cs : List Char} (h : EndsSolid cs) :
    dropBlanksRight cs = cs := by
  refine List.rdropWhile_eq_self_iff.mpr fun hne => ?_
  rw [h _ (List.getLast?_eq_some_getLast hne)]
  exact Bool.false_ne_true

theorem dropBlanksRight_of_blank {cs : List Char} (h : ∀ c ∈ cs, isBlank c = true) :
    dropBlanksRight cs = [] :=
  List.rdropWhile_eq_nil_iff.mpr h

theorem endsSolid_dropBlanksRight (cs : List Char) : EndsSolid (dropBlanksRight cs) := by
  intro c hc
  have hne : dropBlanksRight cs ≠ [] := by
    intro hnil
    rw [hnil] at hc
    exact absurd hc (by simp)
  rw [List.getLast?_eq_some_getLast hne, Option.mem_some_iff] at hc
  have hlast := List.rdropWhile_last_not isBlank cs hne
  rw [Bool.not_eq_true] at hlast
  rw [← hc]
  exact hlast

/-- What is dropped from the end is blank. -/
theorem exists_trailing (cs : List Char) :
    ∃ back, cs = dropBlanksRight cs ++ back ∧ ∀ c ∈ back, isBlank c = true :=
  ⟨cs.rtakeWhile isBlank, List.rdropWhile_append_rtakeWhile.symm,
    fun _ hc => List.mem_rtakeWhile_imp hc⟩

theorem dropBlanksRight_append_of_ne_nil (front : List Char) {cs : List Char}
    (hne : dropBlanksRight cs ≠ []) :
    dropBlanksRight (front ++ cs) = front ++ dropBlanksRight cs := by
  obtain ⟨back, hcs, hback⟩ := exists_trailing cs
  have hsolid := (endsSolid_dropBlanksRight cs).append_left hne front
  calc dropBlanksRight (front ++ cs)
      = dropBlanksRight (front ++ dropBlanksRight cs ++ back) := by
        rw [List.append_assoc, ← hcs]
    _ = dropBlanksRight (front ++ dropBlanksRight cs) := dropBlanksRight_append _ hback
    _ = front ++ dropBlanksRight cs := dropBlanksRight_of_endsSolid hsolid

/-- The blanks at the two ends can be dropped in either order. -/
theorem toList_trim (s : String) :
    (trim s).toList = (dropBlanksRight s.toList).dropWhile isBlank := by
  obtain ⟨run, more, hs, -, hrun, hstops⟩ := exists_run isBlank s.toList
  rw [trim, String.toList_ofList, hs, dropWhile_append_of_stops hrun hstops]
  cases more with
  | nil =>
    rw [List.append_nil, dropBlanksRight_of_blank hrun]
    rfl
  | cons c more =>
    -- The first character that is no blank stays, whichever end comes first.
    have hc : isBlank c = false := hstops c rfl
    obtain ⟨back, hmore, hback⟩ := exists_trailing (c :: more)
    cases hsolid : dropBlanksRight (c :: more) with
    | nil =>
      rw [hsolid, List.nil_append] at hmore
      rw [← hmore] at hback
      exact absurd (hback c List.mem_cons_self) (by rw [hc]; exact Bool.false_ne_true)
    | cons d solid =>
      rw [hsolid] at hmore
      obtain ⟨rfl, -⟩ := List.cons.inj hmore
      have hne : dropBlanksRight (c :: more) ≠ [] := by rw [hsolid]; exact List.cons_ne_nil c solid
      rw [dropBlanksRight_append_of_ne_nil run hne, hsolid]
      refine (dropWhile_append_of_stops hrun fun d hd => ?_).symm
      cases hd
      exact hc

theorem endsSolid_trim (s : String) : EndsSolid (trim s).toList := by
  rw [trim, String.toList_ofList]
  exact endsSolid_dropBlanksRight _

end FormulaTree.Text
