import FormulaTree.Json.Reader
import FormulaTree.Proofs.Json.Ordered

/-!
# Documents are read in order

Whatever order a document writes its members in, they are in order in the value that is read.
`Json.put` keeps the order when a member is set, and every step of a reader keeps it for all that is
read so far.
-/

namespace FormulaTree.Json

theorem mem_put {key : String} {value : Json} {members : List (String × Json)} {m : String × Json}
    (h : m ∈ put key value members) : m = (key, value) ∨ m ∈ members := by
  induction members with
  | nil => exact .inl (List.mem_singleton.mp h)
  | cons first members ih =>
    obtain ⟨k, v⟩ := first
    unfold put at h
    split at h
    · exact List.mem_cons.mp h
    · split at h
      · exact (List.mem_cons.mp h).imp_right (List.mem_cons_of_mem _)
      · rcases List.mem_cons.mp h with rfl | h
        · exact .inr List.mem_cons_self
        · exact (ih h).imp_right (List.mem_cons_of_mem _)

theorem Ascending.put {members : List (String × Json)} (h : Ascending members) (key : String)
    (value : Json) : Ascending (Json.put key value members) := by
  induction members with
  | nil => exact List.pairwise_singleton _ _
  | cons first members ih =>
    obtain ⟨k, v⟩ := first
    obtain ⟨hfirst, hrest⟩ := List.pairwise_cons.mp h
    unfold Json.put
    split
    · rename_i hlt
      refine List.pairwise_cons.mpr ⟨fun m hm => ?_, h⟩
      rcases List.mem_cons.mp hm with rfl | hm
      · exact hlt
      · exact lt_trans hlt (hfirst m hm)
    · rename_i hge
      split
      · rename_i heq
        subst heq
        exact List.pairwise_cons.mpr ⟨hfirst, hrest⟩
      · rename_i hne
        have hlt : k < key := lt_of_le_of_ne (not_lt.mp hge) (Ne.symm hne)
        refine List.pairwise_cons.mpr ⟨fun m hm => ?_, ih hrest⟩
        rcases mem_put hm with rfl | hm
        · exact hlt
        · exact hfirst m hm

/-- Whether the members that are complete in an object are in order. -/
structure MembersOrdered (members : List (String × Json)) : Prop where
  ascending : Ascending members
  values_ordered : ∀ m ∈ members, Ordered m.2

namespace MembersOrdered

variable {members : List (String × Json)}

theorem nil : MembersOrdered [] :=
  ⟨List.Pairwise.nil, by simp⟩

theorem put (h : MembersOrdered members) {value : Json} (hvalue : Ordered value) (key : String) :
    MembersOrdered (Json.put key value members) where
  ascending := h.ascending.put key value
  values_ordered m hm := by
    rcases mem_put hm with rfl | hm
    · exact hvalue
    · exact h.values_ordered m hm

theorem object (h : MembersOrdered members) : Ordered (.object members) :=
  .object h.ascending h.values_ordered

end MembersOrdered

/-! ## Lexemes -/

/-- Whether a lexeme that stands for a value stands for one in order. -/
def Lexeme.Ordered : Lexeme → Prop
  | scalar value => Json.Ordered value
  | _ => True

namespace Lexeme

theorem ordered_of_string? {done cs : List Char} {count n : Nat} {l : Lexeme}
    (h : string? done count cs = some (l, n)) : l.Ordered := by
  fun_induction string? done count cs with
  | case1 => exact absurd h (by simp)
  | case2 =>
    cases h
    trivial
  | case3 _ _ _ _ _ _ _ ih => exact ih h
  | case4 => exact absurd h (by simp)
  | case5 => exact absurd h (by simp)
  | case6 _ _ _ _ _ _ _ ih => exact ih h

theorem ordered_of_word? {value : Json} {word : String} {cs : List Char} {l : Lexeme} {n : Nat}
    (hvalue : Json.Ordered value) (h : word? value word cs = some (l, n)) : l.Ordered := by
  unfold word? at h
  split at h
  · cases h
    exact hvalue
  · exact absurd h (by simp)

theorem ordered_of_number? {cs : List Char} {l : Lexeme} {n : Nat}
    (h : number? cs = some (l, n)) : l.Ordered := by
  unfold number? at h
  simp only [Option.bind_eq_bind, Option.bind_eq_some_iff, Option.pure_def, Option.some.injEq,
    Prod.mk.injEq] at h
  obtain ⟨-, -, -, -, -, -, value, -, rfl, -⟩ := h
  exact .number _

theorem ordered_of_munch? {c : Char} {cs : List Char} {l : Lexeme} {n : Nat}
    (h : munch? c cs = some (l, n)) : l.Ordered := by
  unfold munch? at h
  split at h
  case h_7 => exact ordered_of_string? h
  case h_8 => exact ordered_of_word? .null h
  case h_9 => exact ordered_of_word? (.bool true) h
  case h_10 => exact ordered_of_word? (.bool false) h
  case h_11 => exact ordered_of_number? h
  all_goals
    cases h
    trivial

theorem ordered_of_scan {done ls : List Lexeme} {cs : List Char} (h : scan done cs = some ls)
    (hdone : ∀ l ∈ done, l.Ordered) : ∀ l ∈ ls, l.Ordered := by
  fun_induction scan done cs with
  | case1 done =>
    cases h
    exact fun l hl => hdone l (List.mem_reverse.mp hl)
  | case2 done c cs hgap ih => exact ih h hdone
  | case3 done c cs hgap l n hmunch ih =>
    exact ih h (List.forall_mem_cons.mpr ⟨ordered_of_munch? hmunch, hdone⟩)
  | case4 => exact absurd h (by simp)

end Lexeme

/-! ## Readers -/

def Frame.Ordered : Frame → Prop
  | array items => ∀ v ∈ items, Json.Ordered v
  | object members _ => MembersOrdered members

def Awaited.Ordered : Awaited → Prop
  | value | item => True
  | key members _ | colon members _ => MembersOrdered members
  | continuation v => Json.Ordered v

namespace Progress

/-- Whether all that is read so far is in order. -/
structure Ordered (p : Progress) : Prop where
  frames : ∀ f ∈ p.frames, f.Ordered
  awaited : p.awaited.Ordered

variable {p q : Progress} {l : Lexeme}

theorem Ordered.start (h : p.Ordered) (hl : l.Ordered) (hq : p.start l = some q) : q.Ordered := by
  unfold Progress.start at hq
  split at hq
  · cases hq
    exact ⟨h.frames, hl⟩
  · cases hq
    exact ⟨h.frames, .string _⟩
  · split at hq
    · cases hq
      exact ⟨List.forall_mem_cons.mpr ⟨by simp [Frame.Ordered], h.frames⟩, trivial⟩
    · exact absurd hq (by simp)
  · split at hq
    · cases hq
      exact ⟨h.frames, .nil⟩
    · exact absurd hq (by simp)
  · exact absurd hq (by simp)

theorem Ordered.extend {v : Json} (h : p.Ordered) (hv : Json.Ordered v)
    (hq : p.extend v l = some q) : q.Ordered := by
  unfold Progress.extend at hq
  split at hq
  case h_5 => exact absurd hq (by simp)
  all_goals
    rename_i hframes
    cases hq
    have hopen := h.frames
    rw [hframes, List.forall_mem_cons] at hopen
    obtain ⟨hfirst, hrest⟩ := hopen
  · exact ⟨List.forall_mem_cons.mpr ⟨List.forall_mem_cons.mpr ⟨hv, hfirst⟩, hrest⟩, trivial⟩
  · refine ⟨hrest, .array fun w hw => ?_⟩
    exact List.forall_mem_cons.mpr ⟨hv, hfirst⟩ w (List.mem_reverse.mp hw)
  · exact ⟨hrest, hfirst.put hv _⟩
  · exact ⟨hrest, (hfirst.put hv _).object⟩

theorem Ordered.step (h : p.Ordered) (hl : l.Ordered) (hq : p.step l = some q) : q.Ordered := by
  have hawaited := h.awaited
  unfold Progress.step at hq
  split at hq
  · exact h.start hl hq
  · split at hq
    · rename_i hframes
      cases hq
      have hopen := h.frames
      rw [hframes, List.forall_mem_cons] at hopen
      exact ⟨hopen.2, .array (by simp)⟩
    · exact h.start hl hq
  · rename_i members first hp
    rw [hp] at hawaited
    split at hq
    · cases hq
      exact ⟨h.frames, hawaited⟩
    · split at hq
      · cases hq
        exact ⟨h.frames, MembersOrdered.nil.object⟩
      · exact absurd hq (by simp)
    · exact absurd hq (by simp)
  · rename_i members key hp
    rw [hp] at hawaited
    split at hq
    · cases hq
      exact ⟨List.forall_mem_cons.mpr ⟨hawaited, h.frames⟩, trivial⟩
    · exact absurd hq (by simp)
  · rename_i v hp
    rw [hp] at hawaited
    exact h.extend hawaited hq

theorem Ordered.foldlM {ls : List Lexeme} (h : p.Ordered) (hls : ∀ l ∈ ls, l.Ordered)
    (hq : ls.foldlM Progress.step p = some q) : q.Ordered := by
  induction ls generalizing p with
  | nil =>
    cases hq
    exact h
  | cons l ls ih =>
    rw [List.forall_mem_cons] at hls
    rw [List.foldlM_cons, Option.bind_eq_bind, Option.bind_eq_some_iff] at hq
    obtain ⟨r, hr, hq⟩ := hq
    exact ih (h.step hls.1 hr) hls.2 hq

end Progress

/-- The value of a document is in order. -/
theorem ordered_of_parse? {text : String} {v : Json} (h : parse? text = some v) : Ordered v := by
  unfold parse? at h
  simp only [Option.bind_eq_bind, Option.bind_eq_some_iff] at h
  obtain ⟨ls, hls, p, hp, hv⟩ := h
  have hinit : (Progress.mk [] .value).Ordered := ⟨by simp, trivial⟩
  have hordered := hinit.foldlM (Lexeme.ordered_of_scan hls (by simp)) hp
  unfold Progress.finish? at hv
  split at hv
  · rename_i hawaited _
    cases hv
    have hvalue := hordered.awaited
    rwa [hawaited] at hvalue
  · exact absurd hv (by simp)

theorem ordersMembers_library : library.OrdersMembers := by
  intro text v h
  unfold library at h
  cases hparse : parse? text with
  | none => simp [hparse] at h
  | some w =>
    simp only [hparse] at h
    cases h
    exact ordered_of_parse? hparse

end FormulaTree.Json
