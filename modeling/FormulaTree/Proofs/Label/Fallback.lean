import FormulaTree.Proofs.Label.Dictionary

/-!
# Where a label comes from

A label is looked for in layers: first in the dictionary, then among the built-in labels of `IF`,
and what is left is generic. A layer is asked only where the layers before it have nothing, and the
last one always answers. Without a dictionary no two arguments of a function have the same label.
-/

namespace FormulaTree

namespace Locale

/-- A generic label starts as in `arg` or `引数`, whatever its number. -/
theorem head?_genericLabel (locale : Locale) (index : Nat) :
    (locale.genericLabel index).toList.head? = locale.phrases.argument.toList.head? := by
  rw [genericLabel, String.toList_append]
  cases locale <;> rfl

theorem genericLabel_ne_empty (locale : Locale) (index : Nat) : locale.genericLabel index ≠ "" := by
  intro h
  have hhead := locale.head?_genericLabel index
  rw [h] at hhead
  cases locale <;> exact absurd hhead (by decide)

theorem genericLabel_injective (locale : Locale) : Function.Injective locale.genericLabel := by
  intro i j h
  have hnumber : toString (i + 1) = toString (j + 1) := (String.append_right_inj _).mp h
  exact Nat.succ_injective (Nat.repr_injective hnumber)

end Locale

namespace Label

variable {d : Dictionary} {f label : String} {index : Nat} {variant : Variant} {mode : Mode}
  {locale : Locale}

/-! ## The layer of the dictionary -/

/-- Whether a dictionary has `label` for the argument at `index`. An empty label counts for none. -/
def Dictionary.Offers (d : Dictionary) (f : String) (variant : Variant) (index : Nat)
    (label : String) : Prop :=
  ∃ e, d.get? f = some e ∧ (e.list variant)[index]? = some (some label) ∧ label ≠ ""

theorem Entry.label?_eq_some_iff {e : Entry} :
    e.label? variant index = some label ↔
      (e.list variant)[index]? = some (some label) ∧ label ≠ "" := by
  rw [label?, Option.filter_eq_some_iff, Option.bind_eq_some_iff]
  simp [and_comm]

theorem Dictionary.offers_iff :
    d.Offers f variant index label ↔ (d.get? f).bind (·.label? variant index) = some label := by
  rw [Option.bind_eq_some_iff]
  simp only [Entry.label?_eq_some_iff]
  rfl

theorem resolve_of_offers (hmode : mode.variant? locale = some variant)
    (h : d.Offers f variant index label) : resolve d f index mode locale = label := by
  simp only [resolve, hmode, Dictionary.offers_iff.mp h]

theorem resolve_of_not_offers (hmode : mode.variant? locale = some variant)
    (h : ∀ label, ¬d.Offers f variant index label) :
    resolve d f index mode locale = builtin f index variant locale := by
  have hnone : (d.get? f).bind (·.label? variant index) = none := by
    apply Option.eq_none_iff_forall_ne_some.mpr
    intro label hsome
    exact h label (Dictionary.offers_iff.mpr hsome)
  simp only [resolve, hmode, hnone]

theorem not_offers_empty (f : String) (variant : Variant) (index : Nat) (label : String) :
    ¬Dictionary.empty.Offers f variant index label := by
  rintro ⟨e, he, -⟩
  rw [Dictionary.get?_empty] at he
  cases he

theorem resolve_empty (hmode : mode.variant? locale = some variant) (f : String) (index : Nat) :
    resolve .empty f index mode locale = builtin f index variant locale :=
  resolve_of_not_offers hmode (not_offers_empty f variant index)

/-! ## The layers behind it -/

/-- No built-in label could be taken for a generic one, not even for one of the other language. -/
theorem ne_genericLabel (h : label ∈ conditionalLabels variant) (locale : Locale) (index : Nat) :
    label ≠ locale.genericLabel index := by
  have hhead : ∀ label ∈ conditionalLabels variant,
      label.toList.head? ≠ locale.phrases.argument.toList.head? := by
    cases variant <;> cases locale <;> decide
  rintro rfl
  exact hhead _ h (locale.head?_genericLabel index)

/-- Labels of a list, and behind its end others that are not in it, are as different as both are. -/
theorem getD_injective {labels : List String} {g : Nat → String} (hlabels : labels.Nodup)
    (hg : Function.Injective g) (hne : ∀ label ∈ labels, ∀ i, label ≠ g i) :
    Function.Injective fun i => labels[i]?.getD (g i) := by
  intro i j h
  dsimp only at h
  by_cases hi : i < labels.length
  · rw [List.getElem?_eq_getElem hi, Option.getD_some] at h
    by_cases hj : j < labels.length
    · rw [List.getElem?_eq_getElem hj, Option.getD_some] at h
      exact hlabels.getElem_inj_iff.mp h
    · rw [List.getElem?_eq_none (by omega), Option.getD_none] at h
      exact absurd h (hne _ (List.getElem_mem hi) j)
  · rw [List.getElem?_eq_none (by omega), Option.getD_none] at h
    by_cases hj : j < labels.length
    · rw [List.getElem?_eq_getElem hj, Option.getD_some] at h
      exact absurd h.symm (hne _ (List.getElem_mem hj) i)
    · rw [List.getElem?_eq_none (by omega), Option.getD_none] at h
      exact hg h

theorem builtin_injective (f : String) (variant : Variant) (locale : Locale) :
    Function.Injective fun index => builtin f index variant locale := by
  by_cases hf : Text.upperCase f = "IF"
  · simp only [builtin, if_pos hf]
    apply getD_injective
    · cases variant <;> decide
    · exact Locale.genericLabel_injective _
    · intro label hlabel index
      exact ne_genericLabel hlabel _ index
  · simp only [builtin, if_neg hf]
    exact locale.genericLabel_injective

theorem builtin_ne_empty (f : String) (index : Nat) (variant : Variant) (locale : Locale) :
    builtin f index variant locale ≠ "" := by
  have hlabels : ∀ label ∈ conditionalLabels variant, label ≠ "" := by
    cases variant <;> decide
  unfold builtin
  split
  · cases hlabel : (conditionalLabels variant)[index]? with
    | some label => exact hlabels label (List.mem_of_getElem? hlabel)
    | none => exact Locale.genericLabel_ne_empty _ index
  · exact locale.genericLabel_ne_empty index

theorem length_conditionalLabels (variant : Variant) : (conditionalLabels variant).length = 3 := by
  cases variant <;> rfl

/-- The first arguments of `IF` have labels of their own. -/
theorem map_builtin_conditional (hf : Text.upperCase f = "IF") (variant : Variant)
    (locale : Locale) :
    ((List.range 3).map fun index => builtin f index variant locale) = conditionalLabels variant := by
  simp only [builtin, if_pos hf]
  cases variant <;> rfl

theorem builtin_conditional_of_le (hf : Text.upperCase f = "IF") (h : 3 ≤ index)
    (variant : Variant) (locale : Locale) :
    builtin f index variant locale =
      (if variant = .en then Locale.en else locale).genericLabel index := by
  have hnone : (conditionalLabels variant)[index]? = none := by
    apply List.getElem?_eq_none
    rw [length_conditionalLabels]
    exact h
  rw [builtin, if_pos hf, hnone, Option.getD_none]

/-! ## All layers -/

theorem resolve_eq_empty_iff : resolve d f index mode locale = "" ↔ mode = .off := by
  cases hmode : mode.variant? locale with
  | none =>
    rw [resolve, hmode]
    exact iff_of_true rfl (Mode.variant?_eq_none_iff.mp hmode)
  | some variant =>
    have hon : mode ≠ .off := by
      intro hoff
      rw [Mode.variant?_eq_none_iff.mpr hoff] at hmode
      cases hmode
    have hlabel : resolve d f index mode locale ≠ "" := by
      by_cases h : ∃ label, d.Offers f variant index label
      · obtain ⟨label, hoffers⟩ := h
        rw [resolve_of_offers hmode hoffers]
        obtain ⟨e, -, -, hne⟩ := hoffers
        exact hne
      · rw [resolve_of_not_offers hmode (not_exists.mp h)]
        exact builtin_ne_empty f index variant locale
    exact iff_of_false hlabel hon

theorem exists_variant (h : mode ≠ .off) (locale : Locale) :
    ∃ variant, mode.variant? locale = some variant := by
  apply Option.ne_none_iff_exists'.mp
  exact mt Mode.variant?_eq_none_iff.mp h

/-- The layers of labels. There is always a label, unless labels are off. It is the one of the
dictionary if that has one for the variant, and else it does not depend on the dictionary; nor does
it depend on the case of the name. Without a dictionary the labels of a function differ from each
other: `IF` starts with labels of its own, and the others are numbered. -/
theorem resolve_by_layers (d : Dictionary) (f : String) (index : Nat) (mode : Mode)
    (locale : Locale) :
    (resolve d f index mode locale = "" ↔ mode = .off) ∧
    (∀ variant label, mode.variant? locale = some variant → d.Offers f variant index label →
      resolve d f index mode locale = label) ∧
    ((∀ variant label, mode.variant? locale = some variant → ¬d.Offers f variant index label) →
      resolve d f index mode locale = resolve .empty f index mode locale) ∧
    (∀ g, g.toUpper = f.toUpper ∨ Text.upperCase g = Text.upperCase f →
      resolve d g index mode locale = resolve d f index mode locale) ∧
    (mode ≠ .off → ∀ other, other ≠ index →
      resolve .empty f other mode locale ≠ resolve .empty f index mode locale) ∧
    (∀ variant, mode.variant? locale = some variant → Text.upperCase f = "IF" →
      ((List.range 3).map fun i => resolve .empty f i mode locale) = conditionalLabels variant ∧
      (3 ≤ index → resolve .empty f index mode locale =
        (if variant = .en then Locale.en else locale).phrases.argument ++ toString (index + 1))) ∧
    (mode ≠ .off → Text.upperCase f ≠ "IF" →
      resolve .empty f index mode locale = locale.phrases.argument ++ toString (index + 1)) := by
  refine ⟨resolve_eq_empty_iff, ?_, ?_, ?_, ?_, ?_, ?_⟩
  · intro variant label hmode hoffers
    exact resolve_of_offers hmode hoffers
  · intro h
    by_cases hoff : mode = .off
    · rw [resolve_eq_empty_iff.mpr hoff, resolve_eq_empty_iff.mpr hoff]
    · obtain ⟨variant, hmode⟩ := exists_variant hoff locale
      rw [resolve_of_not_offers hmode fun label => h variant label hmode, resolve_empty hmode]
  · intro g hname
    apply resolve_congr
    rcases hname with hname | hname
    · rw [← Text.upperCase_toUpper, hname, Text.upperCase_toUpper]
    · exact hname
  · intro hon other hother h
    obtain ⟨variant, hmode⟩ := exists_variant hon locale
    rw [resolve_empty hmode, resolve_empty hmode] at h
    exact hother (builtin_injective f variant locale h)
  · intro variant hmode hf
    constructor
    · simp only [resolve_empty hmode]
      exact map_builtin_conditional hf variant locale
    · intro hindex
      rw [resolve_empty hmode]
      exact builtin_conditional_of_le hf hindex variant locale
  · intro hon hf
    obtain ⟨variant, hmode⟩ := exists_variant hon locale
    rw [resolve_empty hmode, builtin, if_neg hf, Locale.genericLabel]

/-- English labels of `IF` go on in English. -/
example : ((List.range 4).map fun i => resolve .empty "if" i .en .ja) =
    ["logical_test", "value_if_true", "value_if_false", "arg4"] := by
  cbv

end Label

end FormulaTree
