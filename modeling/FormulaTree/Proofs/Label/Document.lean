import FormulaTree.Label.Document
import FormulaTree.Proofs.Json.Reader
import FormulaTree.Proofs.Label.Dictionary
import FormulaTree.Proofs.Text.Bytes

/-!
# What a label document says

The dictionary of a document is told by the members of its object, and not by the way they are taken
in: under which key the entry of a function stands, which labels it has, and the number of functions.
Entries that are inserted later come before it, and outlines show what is found. Of the library that
reads the document only the order of the members is used.
-/

namespace FormulaTree.Label

open Text (upperCase bytes)

variable {json : Json.Library}

/-! ## Entries -/

namespace Entry

/-- Whether `labels` is what the member `key` of an entry writes. It has a place for each item of an
array, empty where the item is no string, and no place if the member is no array or not there. -/
structure Writes (fields : List (String × Json)) (key : String) (labels : List (Option String)) :
    Prop where
  slot_iff : ∀ (i : Nat) (s : String), labels[i]? = some (some s) ↔
    ∃ items, (key, Json.array items) ∈ fields ∧ items[i]? = some (.string s)
  length_eq : ∀ items, (key, Json.array items) ∈ fields → labels.length = items.length
  eq_nil : (∀ items, (key, Json.array items) ∉ fields) → labels = []

/-- Whether an entry has the labels that its fields write, for each variant. -/
def WrittenIn (e : Entry) (fields : List (String × Json)) : Prop :=
  ∀ variant : Variant, Writes fields variant.key (e.list variant)

theorem item?_eq_some_iff {v : Json} {s : String} : item? v = some s ↔ v = .string s := by
  cases v <;> simp [item?]

theorem fst_read (json : Json.Library) (function : String) (fields : List (String × Json))
    (variant : Variant) :
    (read json function fields variant).1 = (list? (fields.lookup variant.key)).getD [] := by
  unfold read
  cases fields.lookup variant.key with
  | none => rfl
  | some v => cases v <;> rfl

theorem list_ofMembers (function : String) (fields : List (String × Json)) (variant : Variant) :
    (ofMembers json function fields).1.list variant =
      (list? (fields.lookup variant.key)).getD [] := by
  rw [← fst_read json function]
  cases variant <;> rfl

variable {fields : List (String × Json)} {key : String}

theorem writes_map (h : Json.Ascending fields) {items : List Json}
    (hitems : (key, Json.array items) ∈ fields) : Writes fields key (items.map item?) := by
  have honly : ∀ items', (key, Json.array items') ∈ fields → items' = items := by
    intro items' hitems'
    have heq := h.eq_of_mem hitems' hitems rfl
    simpa using heq
  constructor
  · intro i s
    rw [List.getElem?_map, Option.map_eq_some_iff]
    constructor
    · rintro ⟨v, hv, hs⟩
      rw [item?_eq_some_iff.mp hs] at hv
      exact ⟨items, hitems, hv⟩
    · rintro ⟨items', hitems', hs⟩
      rw [honly items' hitems'] at hs
      exact ⟨_, hs, rfl⟩
  · intro items' hitems'
    rw [honly items' hitems', List.length_map]
  · intro hnone
    exact absurd hitems (hnone items)

theorem writes_nil (hnone : ∀ items, (key, Json.array items) ∉ fields) : Writes fields key [] where
  slot_iff i s := by simp [hnone]
  length_eq items hitems := absurd hitems (hnone items)
  eq_nil _ := rfl

theorem writes_lookup (h : Json.Ascending fields) :
    Writes fields key ((list? (fields.lookup key)).getD []) := by
  cases hv : fields.lookup key with
  | none =>
    apply writes_nil
    intro items hitems
    rw [h.lookup_eq_some_iff.mpr hitems] at hv
    exact absurd hv (by simp)
  | some v =>
    have hmem := h.lookup_eq_some_iff.mp hv
    by_cases harray : ∃ items, v = .array items
    · obtain ⟨items, rfl⟩ := harray
      exact writes_map h hmem
    · have hnil : (list? (some v)).getD [] = [] := by
        cases v with
        | array items => exact absurd ⟨items, rfl⟩ harray
        | _ => rfl
      rw [hnil]
      apply writes_nil
      intro items hitems
      have heq := h.eq_of_mem hmem hitems rfl
      exact harray ⟨items, (Prod.mk.inj heq).2⟩

theorem Writes.unique {labels labels' : List (Option String)} (h : Writes fields key labels)
    (h' : Writes fields key labels') : labels = labels' := by
  by_cases harray : ∃ items, (key, Json.array items) ∈ fields
  · obtain ⟨items, hitems⟩ := harray
    apply List.ext_getElem
    · rw [h.length_eq items hitems, h'.length_eq items hitems]
    · intro i hi hi'
      apply Option.ext
      intro s
      have hslot := (h.slot_iff i s).trans (h'.slot_iff i s).symm
      simpa [List.getElem?_eq_getElem hi, List.getElem?_eq_getElem hi'] using hslot
  · rw [h.eq_nil (not_exists.mp harray), h'.eq_nil (not_exists.mp harray)]

theorem writtenIn_ofMembers (json : Json.Library) (h : Json.Ascending fields) (function : String) :
    (ofMembers json function fields).1.WrittenIn fields := by
  intro variant
  rw [list_ofMembers]
  exact writes_lookup h

theorem WrittenIn.unique {e e' : Entry} (h : e.WrittenIn fields) (h' : e'.WrittenIn fields) :
    e = e' := by
  cases e
  cases e'
  congr
  · exact (h .ja1).unique (h' .ja1)
  · exact (h .ja2).unique (h' .ja2)
  · exact (h .en).unique (h' .en)

end Entry

/-! ## Documents -/

/-- Whether the member `key` of a document gives the entry of `f`: of the members that are objects
and whose keys have the upper case of `f`, it is the one with the greatest key. -/
structure Counts (members : List (String × Json)) (f key : String) (fields : List (String × Json)) :
    Prop where
  mem : (key, Json.object fields) ∈ members
  upperCase_eq : upperCase key = upperCase f
  greatest : ∀ key' fields', (key', Json.object fields') ∈ members → upperCase key' = upperCase f →
    bytes key' ≤ bytes key

theorem Counts.unique {members : List (String × Json)} (hmembers : Json.Ascending members)
    {f key key' : String} {fields fields' : List (String × Json)} (h : Counts members f key fields)
    (h' : Counts members f key' fields') : key = key' ∧ fields = fields' := by
  have hle := Text.bytes_le_iff.mp (h'.greatest key fields h.mem h.upperCase_eq)
  have hge := Text.bytes_le_iff.mp (h.greatest key' fields' h'.mem h'.upperCase_eq)
  have heq := hmembers.eq_of_mem h.mem h'.mem (le_antisymm hle hge)
  simpa using heq

namespace Dictionary

/-- The entry that a member of a document writes, if it is an object. -/
def written? (json : Json.Library) : String × Json → Option (String × Entry)
  | (key, .object fields) => some (key, (Entry.ofMembers json key fields).1)
  | _ => none

theorem written?_eq_some_iff {m : String × Json} {a : String × Entry} :
    written? json m = some a ↔
      ∃ fields, m = (a.1, .object fields) ∧ a.2 = (Entry.ofMembers json a.1 fields).1 := by
  constructor
  · intro h
    obtain ⟨key, v⟩ := m
    cases v with
    | object fields =>
      cases h
      exact ⟨fields, rfl, rfl⟩
    | _ => exact absurd h (by simp [written?])
  · rintro ⟨fields, rfl, h⟩
    exact congrArg some (Prod.ext rfl h.symm)

theorem fst_foldl_addMember (p : Dictionary × List (List Note)) (members : List (String × Json)) :
    (members.foldl (addMember json) p).1 = p.1.insertAll (members.filterMap (written? json)) := by
  induction members generalizing p with
  | nil => rfl
  | cons m members ih =>
    obtain ⟨key, v⟩ := m
    rw [List.foldl_cons, ih]
    cases v <;> rfl

theorem fst_ofMembers (members : List (String × Json)) :
    (ofMembers json members).1 = empty.insertAll (members.filterMap (written? json)) :=
  fst_foldl_addMember (empty, []) members

variable {members : List (String × Json)}

theorem get?_ofMembers (json : Json.Library) (members : List (String × Json)) (f : String) :
    (ofMembers json members).1.get? f =
      ((members.filterMap (written? json)).reverse.find? fun a => upperCase a.1 = upperCase f).map
        Prod.snd := by
  rw [fst_ofMembers, get?_insertAll, get?_empty, Option.or_none]

theorem get?_ofMembers_eq_none_iff {f : String} :
    (ofMembers json members).1.get? f = none ↔
      ∀ key fields, (key, Json.object fields) ∈ members → upperCase key ≠ upperCase f := by
  rw [get?_ofMembers, Option.map_eq_none_iff, List.find?_eq_none]
  simp only [List.mem_reverse, List.mem_filterMap, written?_eq_some_iff, decide_eq_true_eq]
  constructor
  · intro h key fields hmem
    exact h (key, (Entry.ofMembers json key fields).1) ⟨_, hmem, fields, rfl, rfl⟩
  · rintro h a ⟨m, hmem, fields, rfl, -⟩
    exact h a.1 fields hmem

/-- What is found from the end of entries in ascending order is under the greatest key. -/
theorem le_of_find?_reverse {added : List (String × Entry)}
    (h : added.Pairwise fun a b => a.1 < b.1) {p : String × Entry → Bool} {a : String × Entry}
    (ha : added.reverse.find? p = some a) : ∀ b ∈ added, p b → b.1 ≤ a.1 := by
  obtain ⟨-, after, before, hadded, hafter⟩ := List.find?_eq_some_iff_append.mp ha
  rw [List.reverse_eq_iff, List.reverse_append, List.reverse_cons, List.append_assoc,
    List.singleton_append] at hadded
  subst hadded
  intro b hb hpb
  rcases List.mem_append.mp hb with hb | hb
  · exact le_of_lt ((List.pairwise_append.mp h).2.2 b hb a List.mem_cons_self)
  rcases List.mem_cons.mp hb with rfl | hb
  · exact le_refl _
  · have hnot := hafter b (List.mem_reverse.mp hb)
    simp [hpb] at hnot

theorem pairwise_written (h : Json.Ascending members) :
    (members.filterMap (written? json)).Pairwise fun a b => a.1 < b.1 := by
  apply List.pairwise_filterMap.mpr
  apply List.Pairwise.imp _ h
  intro m n hlt a ha b hb
  obtain ⟨_, rfl, -⟩ := written?_eq_some_iff.mp ha
  obtain ⟨_, rfl, -⟩ := written?_eq_some_iff.mp hb
  exact hlt

theorem exists_counts (h : Json.Ascending members) {f : String} {e : Entry}
    (hget : (ofMembers json members).1.get? f = some e) :
    ∃ key fields, Counts members f key fields ∧ e = (Entry.ofMembers json key fields).1 := by
  rw [get?_ofMembers, Option.map_eq_some_iff] at hget
  obtain ⟨a, ha, rfl⟩ := hget
  have hmem := List.mem_of_find?_eq_some ha
  rw [List.mem_reverse, List.mem_filterMap] at hmem
  obtain ⟨m, hm, hwritten⟩ := hmem
  obtain ⟨fields, rfl, he⟩ := written?_eq_some_iff.mp hwritten
  refine ⟨a.1, fields, ⟨hm, ?_, ?_⟩, he⟩
  · simpa using List.find?_some ha
  · intro key' fields' hm' hkey'
    apply Text.bytes_le_iff.mpr
    apply le_of_find?_reverse (pairwise_written h) ha (key', (Entry.ofMembers json key' fields').1)
    · exact List.mem_filterMap.mpr ⟨_, hm', rfl⟩
    · simpa using hkey'

/-- Whether a dictionary is told by the members of a document: the entry of each function, the
functions without an entry, and how many entries there are. -/
structure Holds (d : Dictionary) (members : List (String × Json)) : Prop where
  get?_eq_some_iff : ∀ f entry, d.get? f = some entry ↔
    ∃ key fields, Counts members f key fields ∧ entry.WrittenIn fields
  get?_eq_none_iff : ∀ f, d.get? f = none ↔
    ∀ key fields, (key, Json.object fields) ∈ members → upperCase key ≠ upperCase f
  size_eq : d.size =
    {name | ∃ key fields, (key, Json.object fields) ∈ members ∧ upperCase key = name}.ncard

theorem size_ofMembers (members : List (String × Json)) :
    (ofMembers json members).1.size =
      {name | ∃ key fields, (key, Json.object fields) ∈ members ∧ upperCase key = name}.ncard := by
  rw [fst_ofMembers, size_insertAll_empty, ← Set.ncard_coe_finset]
  congr 1
  ext name
  simp only [List.coe_toFinset, List.mem_map, List.mem_filterMap, written?_eq_some_iff,
    Set.mem_ofPred_eq]
  constructor
  · rintro ⟨a, ⟨_, hmem, fields, rfl, -⟩, rfl⟩
    exact ⟨a.1, fields, hmem, rfl⟩
  · rintro ⟨key, fields, hmem, rfl⟩
    exact ⟨(key, (Entry.ofMembers json key fields).1), ⟨_, hmem, fields, rfl, rfl⟩, rfl⟩

theorem holds_ofMembers (h : Json.Ordered (.object members)) :
    (ofMembers json members).1.Holds members := by
  have hfields {key : String} {fields : List (String × Json)}
      (hmem : (key, Json.object fields) ∈ members) : Json.Ascending fields :=
    (h.of_mem hmem).ascending
  refine ⟨fun f entry => ⟨fun hget => ?_, ?_⟩, fun f => get?_ofMembers_eq_none_iff,
    size_ofMembers members⟩
  · obtain ⟨key, fields, hcounts, rfl⟩ := exists_counts h.ascending hget
    exact ⟨key, fields, hcounts, Entry.writtenIn_ofMembers json (hfields hcounts.mem) key⟩
  · rintro ⟨key, fields, hcounts, hentry⟩
    cases hget : (ofMembers json members).1.get? f with
    | none =>
      exact absurd hcounts.upperCase_eq
        (get?_ofMembers_eq_none_iff.mp hget key fields hcounts.mem)
    | some entry' =>
      obtain ⟨key', fields', hcounts', rfl⟩ := exists_counts h.ascending hget
      obtain ⟨rfl, rfl⟩ := hcounts.unique h.ascending hcounts'
      rw [(Entry.writtenIn_ofMembers json (hfields hcounts.mem) key).unique hentry]

/-- A document that is an object is always loaded, and its dictionary is told by the members, which
the library keeps in order. When entries are inserted later, one after the other, the last one for a
function comes before those of the document. Outlines have in their rows the labels that are
resolved for the calls as they are written, and names that differ in case only get the same
labels. -/
theorem labels_of_document {json : Json.Library} (hjson : json.OrdersMembers) {text : String}
    {members : List (String × Json)} (h : json.parse text = .ok (.object members)) :
    ∃ d notes, ofDocument json text = .ok (d, notes) ∧ d.Holds members ∧
      ∀ added : List (String × Entry),
        (∀ f, (d.insertAll added).get? f =
          ((added.reverse.find? fun a => upperCase a.1 = upperCase f).map Prod.snd).or (d.get? f)) ∧
        (∀ locale mode header e,
          (Outline.ofExpr ⟨locale, mode, d.insertAll added⟩ header e).root.callRows =
            e.writtenCalls.map fun (f, count) =>
              (upperCase f, (List.range count).map fun index =>
                resolve (d.insertAll added) f index mode locale)) ∧
        ∀ f g, upperCase f = upperCase g → ∀ index mode locale,
          resolve (d.insertAll added) f index mode locale =
            resolve (d.insertAll added) g index mode locale := by
  refine ⟨(ofMembers json members).1, (ofMembers json members).2, ?_,
    holds_ofMembers (hjson text _ h), fun added => ⟨?_, ?_, ?_⟩⟩
  · rw [ofDocument, h]
  · exact get?_insertAll _ added
  · intro locale mode header e
    exact Outline.callRows_ofExpr ⟨locale, mode, _⟩ header e
  · intro f g hname index mode locale
    exact resolve_congr _ hname index mode locale

/-- Of two keys that differ in case only the greater one counts, its labels keep their places, and a
label list that is no array takes nothing from the other lists. -/
theorem labels_of_document_of_two_keys :
    let text := "\x7b\"sum\":\x7b\"ja2\":true,\"en\":[null,\"late\"]\x7d,\"SUM\":\x7b\x7d,\"IF\":null\x7d"
    let fields := [("en", Json.array [.null, .string "late"]), ("ja2", .bool true)]
    let members := [("IF", Json.null), ("SUM", .object []), ("sum", .object fields)]
    Json.library.parse text = .ok (.object members) ∧
      ∃ d notes, ofDocument Json.library text = .ok (d, notes) ∧
        d.get? "Sum" = some ⟨[], [], [none, some "late"]⟩ ∧ d.get? "IF" = none ∧
        (d.insertAll [("sUM", ⟨[], [], []⟩)]).get? "Sum" = some ⟨[], [], []⟩ := by
  intro text fields members
  have hparse : Json.library.parse text = .ok (.object members) := by cbv
  obtain ⟨d, notes, hload, hd, hlater⟩ := labels_of_document Json.ordersMembers_library hparse
  have hfields : Json.Ascending fields := by
    simp only [fields, Json.Ascending, List.pairwise_cons, String.lt_iff_toList_lt]
    decide
  refine ⟨hparse, d, notes, hload, ?_, ?_, ?_⟩
  · refine (hd.get?_eq_some_iff _ _).mpr ⟨"sum", fields, ⟨by simp [members], by decide, ?_⟩,
      Entry.writtenIn_ofMembers Json.library hfields "sum"⟩
    intro key fields' hmem _
    simp only [members, List.mem_cons, Prod.mk.injEq, List.not_mem_nil, or_false] at hmem
    rcases hmem with ⟨rfl, -⟩ | ⟨rfl, -⟩ | ⟨rfl, -⟩ <;> decide
  · apply (hd.get?_eq_none_iff _).mpr
    intro key fields' hmem
    simp only [members, List.mem_cons, Prod.mk.injEq, reduceCtorEq, and_false, false_or,
      List.not_mem_nil, or_false] at hmem
    rcases hmem with ⟨rfl, -⟩ | ⟨rfl, -⟩ <;> decide
  · rw [(hlater _).1]
    rfl

end Dictionary

end FormulaTree.Label
