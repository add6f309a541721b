import FormulaTree.Locale

/-!
# Label modes

Which list of argument labels is shown. A dictionary holds up to three lists for a function, its
variants; a mode chooses one of them or none.
-/

namespace FormulaTree.Label

inductive Variant where
  | ja1
  | ja2
  | en
deriving DecidableEq, Repr

inductive Mode where
  /-- The variant that suits the locale. -/
  | auto
  | ja1
  | ja2
  | en
  | off
deriving DecidableEq, Repr, Inhabited

structure UnknownMode where
  text : String
deriving DecidableEq, Repr

def UnknownMode.message (e : UnknownMode) : String :=
  "unknown label mode: " ++ e.text ++ " (expected auto, ja1, ja2, en or off)"

/-- The member of a dictionary entry that holds the variant. -/
def Variant.key : Variant → String
  | ja1 => "ja1"
  | ja2 => "ja2"
  | en => "en"

namespace Mode

def code : Mode → String
  | auto => "auto"
  | ja1 => "ja1"
  | ja2 => "ja2"
  | en => "en"
  | off => "off"

def ofCode (code : String) : Except UnknownMode Mode :=
  match code with
  | "auto" => .ok auto
  | "ja1" => .ok ja1
  | "ja2" => .ok ja2
  | "en" => .ok en
  | "off" => .ok off
  | _ => .error ⟨code⟩

/-- The variant that is shown, unless labels are off. -/
def variant? : Mode → Locale → Option Variant
  | auto, .ja => some .ja1
  | auto, .en => some .en
  | ja1, _ => some .ja1
  | ja2, _ => some .ja2
  | en, _ => some .en
  | off, _ => none

theorem ofCode_code (mode : Mode) : (ofCode mode.code).toOption = some mode := by
  cases mode <;> rfl

theorem variant?_eq_none_iff {mode : Mode} {locale : Locale} :
    mode.variant? locale = none ↔ mode = off := by
  cases mode <;> cases locale <;> simp [variant?]

end Mode

end FormulaTree.Label
