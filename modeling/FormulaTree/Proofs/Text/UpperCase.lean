import FormulaTree.Text.UpperCase
import Mathlib

/-!
# Upper case twice

A text in upper case is its own upper case: no character that a character is mapped to is mapped
itself. The mappings are compared as two sets of code points, each written as the bits of one
number, so that all of them are compared at once.
-/

namespace FormulaTree.Text

/-! ## Letters of ASCII -/

theorem toUpper_of_ascii {c : Char} (h : c.toNat < 0x80) :
    c.toUpper.toNat < 0x80 ∧ c.toUpper.toUpper = c.toUpper := by
  have hascii : ∀ n : Fin 0x80, (Char.ofNat n).toUpper.toNat < 0x80 ∧
      (Char.ofNat n).toUpper.toUpper = (Char.ofNat n).toUpper := by
    decide
  have hupper := hascii ⟨c.toNat, h⟩
  rwa [Char.ofNat_toNat] at hupper

theorem toUpper_eq_self {c : Char} (h : ∀ k < 26, c.toNat ≠ 0x61 + k) : c.toUpper = c := by
  unfold Char.toUpper
  split
  · rename_i hletter
    have htoNat : c.toNat = c.val.toNat := rfl
    simp [UInt32.le_iff_toNat_le] at hletter
    exact absurd (by omega) (h (c.toNat - 0x61) (by omega))
  · rfl

/-- Upper-casing the letters of ASCII first makes no difference. -/
theorem upperCase_toUpper (s : String) : upperCase s.toUpper = upperCase s := by
  have hchar (c : Char) : upperChar c.toUpper = upperChar c := by
    by_cases hc : c.toNat < 0x80
    · have hupper := toUpper_of_ascii hc
      rw [upperChar_of_ascii hupper.1, upperChar_of_ascii hc, hupper.2]
    · rw [toUpper_eq_self (by omega)]
  rw [upperCase, upperCase, String.toUpper, String.toList_map, List.flatMap_map]
  simp only [hchar]

/-! ## Sets of code points -/

/-- The number whose bits are set at the given code points. -/
def bitsAt (codes : List Nat) : Nat :=
  codes.foldr (fun code bits => bits ||| 1 <<< code) 0

theorem testBit_bitsAt (codes : List Nat) (n : Nat) :
    (bitsAt codes).testBit n = true ↔ n ∈ codes := by
  induction codes with
  | nil => simp [bitsAt]
  | cons code codes ih =>
    have hcons : bitsAt (code :: codes) = bitsAt codes ||| 1 <<< code := rfl
    rw [hcons, Nat.testBit_or, Bool.or_eq_true, ih, List.mem_cons, or_comm]
    simp [Nat.one_shiftLeft, Nat.testBit_two_pow, eq_comm]

theorem not_mem_of_bitsAt {codes codes' : List Nat} (h : bitsAt codes &&& bitsAt codes' = 0)
    {n : Nat} (hn : n ∈ codes) : n ∉ codes' := by
  intro hn'
  have hbit : (bitsAt codes &&& bitsAt codes').testBit n = true := by
    rw [Nat.testBit_and, (testBit_bitsAt codes n).mpr hn, (testBit_bitsAt codes' n).mpr hn']
    rfl
  rw [h, Nat.zero_testBit] at hbit
  exact absurd hbit Bool.false_ne_true

/-- Where the code points of a run lie, counted from the first of them. -/
def CaseRun.offsets (r : CaseRun) : List Nat :=
  (List.range (r.last - r.first + 1)).filter (· % r.step = 0)

theorem CaseRun.mem_offsets {r : CaseRun} {code upper : Nat} (h : r.upper? code = some upper) :
    ∃ k ∈ r.offsets, code = r.first + k ∧ upper = r.target + k := by
  unfold upper? at h
  split at h
  · rename_i hlies
    refine ⟨code - r.first, ?_, by omega, (Option.some.inj h).symm⟩
    rw [offsets, List.mem_filter, List.mem_range, decide_eq_true_eq]
    omega
  · exact absurd h (by simp)

/-- The code points that have another upper case. -/
def mappedCodes : List Nat :=
  (List.range 26).map (0x61 + ·) ++ (upperCaseRuns.flatMap fun r => r.offsets.map (r.first + ·)) ++
    upperCaseExpansions.map Prod.fst

/-- The code points that occur in the upper case of others, apart from those of ASCII. -/
def targetCodes : List Nat :=
  (upperCaseRuns.flatMap fun r => r.offsets.map (r.target + ·)) ++
    upperCaseExpansions.flatMap Prod.snd

theorem not_mem_mappedCodes {code : Nat} (h : code ∈ targetCodes) : code ∉ mappedCodes :=
  not_mem_of_bitsAt (by decide +kernel) h

/-! ## Characters in upper case -/

/-- Only the code points that are mapped have another upper case. -/
theorem upperChar_eq_self {c : Char} (h : c.toNat ∉ mappedCodes) : upperChar c = [c] := by
  unfold upperChar
  split
  · rw [toUpper_eq_self]
    intro k hk hcode
    refine absurd (List.mem_append_left _ (List.mem_append_left _ ?_)) h
    rw [hcode]
    exact List.mem_map_of_mem (List.mem_range.mpr hk)
  · have hexpansions : upperCaseExpansions.lookup c.toNat = none := by
      rw [List.lookup_eq_none_iff]
      intro p hp
      simp only [bne_iff_ne]
      rintro heq
      exact h (List.mem_append_right _ (heq ▸ List.mem_map_of_mem hp))
    have hruns : upperCaseRuns.findSome? (·.upper? c.toNat) = none := by
      rw [List.findSome?_eq_none_iff]
      intro r hr
      cases hupper : r.upper? c.toNat with
      | none => rfl
      | some upper =>
        obtain ⟨k, hk, hcode, -⟩ := CaseRun.mem_offsets hupper
        refine absurd (List.mem_append_left _ (List.mem_append_right _ ?_)) h
        rw [List.mem_flatMap]
        exact ⟨r, hr, List.mem_map.mpr ⟨k, hk, hcode.symm⟩⟩
    simp only [hexpansions, hruns]

/-- A number that is no code point stands for the first one. -/
theorem upperChar_ofNat {code : Nat} (h : code ∈ targetCodes) :
    upperChar (Char.ofNat code) = [Char.ofNat code] := by
  apply upperChar_eq_self
  rw [Char.toNat_ofNat]
  split
  · exact not_mem_mappedCodes h
  · decide +kernel

/-- What a character is mapped to is in upper case. -/
theorem upperChar_of_mem_upperChar {c d : Char} (h : d ∈ upperChar c) : upperChar d = [d] := by
  by_cases hascii : c.toNat < 0x80
  · have hupper := toUpper_of_ascii hascii
    rw [upperChar_of_ascii hascii, List.mem_singleton] at h
    rw [h, upperChar_of_ascii hupper.1, hupper.2]
  · cases hcodes : upperCaseExpansions.lookup c.toNat with
    | some codes =>
      have hchar : upperChar c = codes.map Char.ofNat := by
        simp only [upperChar, if_neg hascii, hcodes]
      rw [hchar] at h
      obtain ⟨before, after, hlist, -⟩ := List.lookup_eq_some_iff.mp hcodes
      obtain ⟨code, hcode, rfl⟩ := List.mem_map.mp h
      apply upperChar_ofNat
      refine List.mem_append_right _ (List.mem_flatMap.mpr ⟨(c.toNat, codes), ?_, hcode⟩)
      rw [hlist]
      exact List.mem_append_right _ List.mem_cons_self
    | none =>
      cases hcode : upperCaseRuns.findSome? (·.upper? c.toNat) with
      | some code =>
        have hchar : upperChar c = [Char.ofNat code] := by
          simp only [upperChar, if_neg hascii, hcodes, hcode]
        rw [hchar, List.mem_singleton] at h
        obtain ⟨r, hr, hupper⟩ := List.exists_of_findSome?_eq_some hcode
        obtain ⟨k, hk, -, rfl⟩ := CaseRun.mem_offsets hupper
        rw [h]
        apply upperChar_ofNat
        refine List.mem_append_left _ (List.mem_flatMap.mpr ⟨r, hr, ?_⟩)
        exact List.mem_map_of_mem hk
      | none =>
        have hchar : upperChar c = [c] := by
          simp only [upperChar, if_neg hascii, hcodes, hcode]
        rw [hchar, List.mem_singleton] at h
        rw [h, hchar]

theorem flatMap_upperChar {cs : List Char} (h : ∀ c ∈ cs, upperChar c = [c]) :
    cs.flatMap upperChar = cs := by
  induction cs with
  | nil => rfl
  | cons c cs ih =>
    rw [List.forall_mem_cons] at h
    rw [List.flatMap_cons, h.1, ih h.2, List.singleton_append]

@[simp] theorem upperCase_upperCase (s : String) : upperCase (upperCase s) = upperCase s := by
  apply String.toList_inj.mp
  rw [toList_upperCase, toList_upperCase]
  apply flatMap_upperChar
  intro d hd
  obtain ⟨c, -, hd⟩ := List.mem_flatMap.mp hd
  exact upperChar_of_mem_upperChar hd

end FormulaTree.Text
