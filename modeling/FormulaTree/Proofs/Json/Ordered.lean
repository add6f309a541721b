import FormulaTree.Json.Basic
import Mathlib

/-!
# Values with ordered members

In the values that a library reads every object has its members in ascending order of their keys,
each key once. This is all that is asked of a library.
-/

namespace FormulaTree.Json

/-- Whether members are in ascending order of their keys; then each key is there once. -/
def Ascending (members : List (String × Json)) : Prop :=
  members.Pairwise fun m n => m.1 < n.1

/-- A key is there once. -/
theorem Ascending.eq_of_mem {members : List (String × Json)} (h : Ascending members)
    {m n : String × Json} (hm : m ∈ members) (hn : n ∈ members) (hkey : m.1 = n.1) : m = n := by
  have hnodup : (members.map Prod.fst).Nodup := List.pairwise_map.mpr (h.imp ne_of_lt)
  exact List.inj_on_of_nodup_map hnodup hm hn hkey

theorem Ascending.lookup_eq_some_iff {members : List (String × Json)} (h : Ascending members)
    {key : String} {v : Json} : members.lookup key = some v ↔ (key, v) ∈ members := by
  constructor
  · intro hv
    obtain ⟨before, after, rfl, -⟩ := List.lookup_eq_some_iff.mp hv
    simp
  · intro hv
    cases hw : members.lookup key with
    | none => exact absurd (List.lookup_eq_none_iff.mp hw _ hv) (by simp)
    | some w =>
      obtain ⟨before, after, rfl, -⟩ := List.lookup_eq_some_iff.mp hw
      have heq := h.eq_of_mem hv (n := (key, w)) (by simp) rfl
      rw [Prod.mk.injEq] at heq
      rw [heq.2]

/-- A value in which the members of every object are in ascending order. -/
inductive Ordered : Json → Prop where
  | null : Ordered .null
  | bool (value : Bool) : Ordered (.bool value)
  | number (text : String) : Ordered (.number text)
  | string (value : String) : Ordered (.string value)
  | array {items : List Json} (items_ordered : ∀ v ∈ items, Ordered v) : Ordered (.array items)
  | object {members : List (String × Json)} (ascending : Ascending members)
      (values_ordered : ∀ m ∈ members, Ordered m.2) : Ordered (.object members)

theorem Ordered.ascending {members : List (String × Json)} (h : Ordered (.object members)) :
    Ascending members := by
  cases h with
  | object hascending _ => exact hascending

theorem Ordered.of_mem {members : List (String × Json)} (h : Ordered (.object members))
    {m : String × Json} (hm : m ∈ members) : Ordered m.2 := by
  cases h with
  | object _ hvalues => exact hvalues m hm

/-- Whether the members of all that is read are in order. -/
def Library.OrdersMembers (json : Library) : Prop :=
  ∀ text v, json.parse text = .ok v → Ordered v

end FormulaTree.Json
