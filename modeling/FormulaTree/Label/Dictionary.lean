import FormulaTree.Label.Mode
import FormulaTree.Text.UpperCase
import Std.Data.HashMap

/-!
# Dictionaries of argument labels

A `Dictionary` gives functions, by name in any letter case, the labels of their arguments. The label
of an argument is found without fail: what the dictionary does not hold comes from the built-in
labels of `IF`, and what these do not hold is generic.
-/

namespace FormulaTree.Label

/-- The labels of one function: a list for each variant, in which a place may be empty. -/
structure Entry where
  ja1 : List (Option String)
  ja2 : List (Option String)
  en : List (Option String)
deriving DecidableEq, Repr, Inhabited

namespace Entry

def list (e : Entry) : Variant → List (Option String)
  | .ja1 => e.ja1
  | .ja2 => e.ja2
  | .en => e.en

/-- The label at `index`, if there is one and it is not empty. -/
def label? (e : Entry) (variant : Variant) (index : Nat) : Option String :=
  ((e.list variant)[index]?.bind id).filter (!·.isEmpty)

end Entry

/-- Labels by the upper case of the function's name. -/
structure Dictionary where
  entries : Std.HashMap String Entry

namespace Dictionary

def empty : Dictionary := ⟨∅⟩

instance : Inhabited Dictionary := ⟨empty⟩

def insert (d : Dictionary) (function : String) (e : Entry) : Dictionary :=
  ⟨d.entries.insert (Text.upperCase function) e⟩

def get? (d : Dictionary) (function : String) : Option Entry :=
  d.entries[Text.upperCase function]?

def size (d : Dictionary) : Nat :=
  d.entries.size

@[simp] theorem get?_empty (function : String) : empty.get? function = none := by
  simp [get?, empty]

theorem get?_insert (d : Dictionary) (f g : String) (e : Entry) :
    (d.insert f e).get? g =
      if Text.upperCase f = Text.upperCase g then some e else d.get? g := by
  simp [get?, insert, Std.HashMap.getElem?_insert]

@[simp] theorem get?_insert_self (d : Dictionary) (f : String) (e : Entry) :
    (d.insert f e).get? f = some e := by
  simp [get?_insert]

end Dictionary

/-- The built-in labels of the arguments of `IF`. -/
def conditionalLabels : Variant → List String
  | .en => ["logical_test", "value_if_true", "value_if_false"]
  | .ja1 | .ja2 => ["条件式", "真の場合", "偽の場合"]

/-- The label of an argument for which no dictionary has one. English labels of `IF` go on in
English whatever the locale. -/
def builtin (function : String) (index : Nat) (variant : Variant) (locale : Locale) : String :=
  if Text.upperCase function = "IF" then
    let locale := if variant = .en then .en else locale
    (conditionalLabels variant)[index]?.getD (locale.genericLabel index)
  else
    locale.genericLabel index

/-- The label in front of the argument at `index`, counted from 0; empty when labels are off. -/
def resolve (d : Dictionary) (function : String) (index : Nat) (mode : Mode) (locale : Locale) :
    String :=
  match mode.variant? locale with
  | none => ""
  | some variant =>
    match (d.get? function).bind (·.label? variant index) with
    | some label => label
    | none => builtin function index variant locale

end FormulaTree.Label
