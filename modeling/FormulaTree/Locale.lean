import FormulaTree.Text.Blank

/-!
# Locales and their phrases

The two languages of messages and generic labels, and how one is chosen.
-/

namespace FormulaTree

inductive Locale where
  | ja
  | en
deriving DecidableEq, Repr, Inhabited

structure UnknownLanguage where
  text : String
deriving DecidableEq, Repr

def UnknownLanguage.message (e : UnknownLanguage) : String :=
  "unknown language: " ++ e.text ++ " (expected ja or en)"

/-- Fixed texts of one language. -/
structure Phrases where
  /-- Stands in front of an error message. -/
  errorPrefix : String
  /-- Says that the label dictionary cannot be loaded. -/
  labelsUnavailable : String
  /-- The generic label of an argument, without its number. -/
  argument : String
  /-- Stands in front of the name of the label mode. -/
  labelMode : String
deriving DecidableEq, Repr

namespace Locale

def code : Locale → String
  | ja => "ja"
  | en => "en"

def ofCode (code : String) : Except UnknownLanguage Locale :=
  match code with
  | "ja" => .ok ja
  | "en" => .ok en
  | _ => .error ⟨code⟩

/-- The locale for a language tag such as `ja_JP.UTF-8` or `en-US`: Japanese when the tag starts
with `ja` in any letter case, English for every other tag. -/
def ofLanguageTag (tag : String) : Locale :=
  if ['j', 'a'].isPrefixOf ((Text.trim tag).toList.map Char.toLower) then ja else en

/-- The environment variables that set the locale, the deciding ones first. -/
def environmentNames : List String := ["LC_ALL", "LC_MESSAGES", "LANG"]

/-- The locale of an environment: the first variable that is set and not empty decides, and without
one the locale is English. -/
def ofEnvironment (env : String → Option String) : Locale :=
  match (environmentNames.filterMap env).find? (!·.isEmpty) with
  | some tag => ofLanguageTag tag
  | none => en

def phrases : Locale → Phrases
  | ja =>
    { errorPrefix := "エラー: "
      labelsUnavailable := "引数ラベル辞書の読み込みに失敗しました（汎用ラベルで続行します）。"
      argument := "引数"
      labelMode := "引数ラベル表示:" }
  | en =>
    { errorPrefix := "Error: "
      labelsUnavailable :=
        "Failed to load the argument label dictionary (continuing with generic labels)."
      argument := "arg"
      labelMode := "Argument labels:" }

/-- The label of the argument at `index`, counted from 0, when nothing else is known of it. -/
def genericLabel (locale : Locale) (index : Nat) : String :=
  locale.phrases.argument ++ toString (index + 1)

theorem ofCode_code (locale : Locale) : (ofCode locale.code).toOption = some locale := by
  cases locale <;> rfl

end Locale

end FormulaTree
