import Mathlib

/-!
# The order of texts

Texts are ordered by the code points of their characters, and that is the order of their bytes in
UTF-8: the first byte in which two characters differ tells which of them is the smaller.
-/

namespace FormulaTree.Text

/-- The bytes of a text in UTF-8. -/
def bytes (s : String) : List UInt8 :=
  s.toUTF8.data.toList

theorem bytes_eq_flatMap (s : String) : bytes s = s.toList.flatMap String.utf8EncodeChar := by
  conv_lhs => rw [bytes, ← String.ofList_toList (s := s)]
  rw [String.toUTF8_eq_toByteArray, String.toByteArray_ofList, List.utf8Encode,
    List.data_toByteArray]

theorem cons_lt_cons {a b : Nat} (ha : a < 256) (hb : b < 256) {u v : List UInt8} (hle : a ≤ b)
    (h : a = b → u < v) : UInt8.ofNat a :: u < UInt8.ofNat b :: v := by
  rw [List.cons_lt_cons_iff]
  by_cases heq : a = b
  · exact .inr ⟨congrArg UInt8.ofNat heq, h heq⟩
  · left
    have hlt : a < b := by omega
    simpa [UInt8.lt_iff_toNat_lt, Nat.mod_eq_of_lt ha, Nat.mod_eq_of_lt hb] using hlt

/-- Of two characters the smaller one has the smaller bytes, whatever follows. -/
theorem utf8EncodeChar_append_lt {c d : Char} (h : c < d) (u v : List UInt8) :
    String.utf8EncodeChar c ++ u < String.utf8EncodeChar d ++ v := by
  have hlt : c.val.toNat < d.val.toNat := h
  have hvalid := d.valid
  simp only [UInt32.isValidChar, Nat.isValidChar] at hvalid
  unfold String.utf8EncodeChar
  generalize c.val.toNat = m at hlt ⊢
  generalize d.val.toNat = n at hlt hvalid ⊢
  dsimp only
  -- A character with fewer bytes has the smaller first byte.
  by_cases hm₁ : m ≤ 0x7f
  · rw [if_pos hm₁]
    by_cases hn₁ : n ≤ 0x7f
    · rw [if_pos hn₁]
      exact cons_lt_cons (by omega) (by omega) (by omega) (by omega)
    · rw [if_neg hn₁]
      split
      · exact cons_lt_cons (by omega) (by omega) (by omega) (by omega)
      · split <;> exact cons_lt_cons (by omega) (by omega) (by omega) (by omega)
  rw [if_neg hm₁, if_neg (by omega : ¬n ≤ 0x7f)]
  by_cases hm₂ : m ≤ 0x7ff
  · rw [if_pos hm₂]
    by_cases hn₂ : n ≤ 0x7ff
    · rw [if_pos hn₂]
      refine cons_lt_cons (by omega) (by omega) (by omega) fun _ => ?_
      exact cons_lt_cons (by omega) (by omega) (by omega) (by omega)
    · rw [if_neg hn₂]
      split <;> exact cons_lt_cons (by omega) (by omega) (by omega) (by omega)
  rw [if_neg hm₂, if_neg (by omega : ¬n ≤ 0x7ff)]
  by_cases hm₃ : m ≤ 0xffff
  · rw [if_pos hm₃]
    by_cases hn₃ : n ≤ 0xffff
    · rw [if_pos hn₃]
      refine cons_lt_cons (by omega) (by omega) (by omega) fun _ => ?_
      refine cons_lt_cons (by omega) (by omega) (by omega) fun _ => ?_
      exact cons_lt_cons (by omega) (by omega) (by omega) (by omega)
    · rw [if_neg hn₃]
      exact cons_lt_cons (by omega) (by omega) (by omega) (by omega)
  rw [if_neg hm₃, if_neg (by omega : ¬n ≤ 0xffff)]
  refine cons_lt_cons (by omega) (by omega) (by omega) fun _ => ?_
  refine cons_lt_cons (by omega) (by omega) (by omega) fun _ => ?_
  refine cons_lt_cons (by omega) (by omega) (by omega) fun _ => ?_
  exact cons_lt_cons (by omega) (by omega) (by omega) (by omega)

theorem append_lt_append_left {u v : List UInt8} (h : u < v) (bs : List UInt8) :
    bs ++ u < bs ++ v := by
  induction bs with
  | nil => exact h
  | cons b bs ih => exact List.cons_lt_cons_iff.mpr (.inr ⟨rfl, ih⟩)

theorem flatMap_utf8EncodeChar_lt {cs ds : List Char} (h : cs < ds) :
    cs.flatMap String.utf8EncodeChar < ds.flatMap String.utf8EncodeChar := by
  induction h with
  | @nil d ds =>
    rw [List.flatMap_nil, List.flatMap_cons]
    cases hd : String.utf8EncodeChar d with
    | nil => exact absurd hd String.utf8EncodeChar_ne_nil
    | cons b bs => exact List.nil_lt_cons b _
  | rel hlt =>
    rw [List.flatMap_cons, List.flatMap_cons]
    exact utf8EncodeChar_append_lt hlt _ _
  | cons _ ih =>
    rw [List.flatMap_cons, List.flatMap_cons]
    exact append_lt_append_left ih _

theorem bytes_lt {s t : String} (h : s < t) : bytes s < bytes t := by
  rw [bytes_eq_flatMap, bytes_eq_flatMap]
  exact flatMap_utf8EncodeChar_lt (String.lt_iff_toList_lt.mp h)

/-- The order of texts is the order of their bytes. -/
theorem bytes_lt_iff {s t : String} : bytes s < bytes t ↔ s < t := by
  constructor
  · intro h
    by_contra hge
    rcases lt_or_eq_of_le (not_lt.mp hge) with hlt | rfl
    · exact List.lt_asymm h (bytes_lt hlt)
    · exact List.lt_irrefl _ h
  · exact bytes_lt

theorem bytes_le_iff {s t : String} : bytes s ≤ bytes t ↔ s ≤ t :=
  not_congr bytes_lt_iff

end FormulaTree.Text
