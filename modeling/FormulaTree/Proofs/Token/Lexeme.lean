import FormulaTree.Proofs.Text.Run
import FormulaTree.Token.Scanner

/-!
# How tokens are written

`Token.Written t lexeme more` says that `t` stands in a text as `lexeme` when the characters `more`
follow. The scanner takes a token from the front of a text exactly where one is written so, and
since `more` has a part in it, what it takes is the longest lexeme there.
-/

namespace FormulaTree.Token

open Text (exists_run takeWhile_append_of_stops)

/-- The characters of a token, a string between its quotes. -/
def lexeme : Token → List Char
  | string contents => '"' :: contents.toList ++ ['"']
  | t => t.text.toList

/-- Whether the text that a token carries is one that can be read. -/
def Spelled : Token → Prop
  | name text =>
    ∃ c cs, text.toList = c :: cs ∧ startsName c = true ∧ ∀ d ∈ cs, isNamePart d = true
  | number text =>
    ∃ c cs, text.toList = c :: cs ∧ startsNumber c cs = true ∧ ∀ d ∈ cs, isNumberPart d = true
  | string contents => '"' ∉ contents.toList
  | ending => False
  | _ => True

/-- Whether a token with `c` behind it would be read as a longer one. -/
def continuedBy : Token → Char → Bool
  | name _, c => isNamePart c
  | number _, c => isNumberPart c
  | op .eq, c | op .gt, c => c = '='
  | op .lt, c => c = '=' || c = '>'
  | _, _ => false

/-- How a token stands in front of the characters `more`. -/
inductive Written : Token → List Char → List Char → Prop where
  | whole {t : Token} {more : List Char} (spelled : t.Spelled)
      (stops : ∀ c ∈ more.head?, t.continuedBy c = false) : Written t t.lexeme more
  /-- A string whose closing quote is missing runs to the end. -/
  | unclosed {contents : List Char} (quoteless : '"' ∉ contents) :
      Written (.string (String.ofList contents)) ('"' :: contents) []

/-! ## What the scanner takes is written there -/

theorem Written.single {t : Token} {c : Char} {more : List Char} (spelled : t.Spelled)
    (hlexeme : t.lexeme = [c]) (hstops : ∀ d ∈ more.head?, t.continuedBy d = false) :
    Written t [c] more :=
  hlexeme ▸ .whole spelled hstops

theorem written_string (cs : List Char) :
    Written (.string (String.ofList (cs.takeWhile (· ≠ '"'))))
      ('"' :: cs.take ((cs.takeWhile (· ≠ '"')).length + 1))
      (cs.drop ((cs.takeWhile (· ≠ '"')).length + 1)) := by
  obtain ⟨run, more, hcs, htake, hrun, hstops⟩ := exists_run (· ≠ '"') cs
  have hquoteless : '"' ∉ run := fun hmem => by simpa using hrun '"' hmem
  rw [htake, hcs]
  cases more with
  | nil =>
    rw [List.append_nil, List.take_of_length_le (Nat.le_succ _),
      List.drop_eq_nil_of_le (Nat.le_succ _)]
    exact .unclosed hquoteless
  | cons c more =>
    -- The run stopped at a quote, which belongs to the string.
    have hc : c = '"' := by simpa using hstops c rfl
    have hlexeme : (string (String.ofList run)).lexeme = '"' :: (run ++ ['"']) := by
      simp only [lexeme, String.toList_ofList, List.cons_append]
    have hspelled : (string (String.ofList run)).Spelled := by
      simpa only [Spelled, String.toList_ofList] using hquoteless
    rw [hc, List.take_length_add_append, List.drop_length_add_append, List.take_succ_cons,
      List.take_zero, List.drop_succ_cons, List.drop_zero, ← hlexeme]
    exact .whole hspelled fun d _ => rfl

theorem written_number {c : Char} {cs : List Char} (hstart : startsNumber c cs = true) :
    Written (.number (String.ofList (c :: cs.takeWhile isNumberPart)))
      (c :: cs.take (cs.takeWhile isNumberPart).length)
      (cs.drop (cs.takeWhile isNumberPart).length) := by
  obtain ⟨run, more, hcs, htake, hrun, hstops⟩ := exists_run isNumberPart cs
  rw [htake, hcs, List.take_left, List.drop_left]
  -- The digit behind a leading dot is part of the run.
  have hstartRun : startsNumber c run = true := by
    cases run with
    | cons d run => rw [hcs] at hstart; exact hstart
    | nil =>
      rw [hcs, List.nil_append] at hstart
      cases more with
      | nil => exact hstart
      | cons d more =>
        have hd : isNumberPart d = false := hstops d rfl
        simp only [isNumberPart, Bool.or_eq_false_iff] at hd
        simpa only [startsNumber, List.head?_cons, Option.any_some, hd.1, Bool.and_false,
          List.head?_nil, Option.any_none] using hstart
  have hlexeme : (number (String.ofList (c :: run))).lexeme = c :: run := by
    simp only [lexeme, text, String.toList_ofList]
  have hspelled : (number (String.ofList (c :: run))).Spelled :=
    ⟨c, run, String.toList_ofList, hstartRun, hrun⟩
  have hwritten := Written.whole hspelled hstops
  rwa [hlexeme] at hwritten

theorem written_name {c : Char} {cs : List Char} (hstart : startsName c = true) :
    Written (.name (String.ofList (c :: cs.takeWhile isNamePart)))
      (c :: cs.take (cs.takeWhile isNamePart).length)
      (cs.drop (cs.takeWhile isNamePart).length) := by
  obtain ⟨run, more, hcs, htake, hrun, hstops⟩ := exists_run isNamePart cs
  rw [htake, hcs, List.take_left, List.drop_left]
  have hlexeme : (name (String.ofList (c :: run))).lexeme = c :: run := by
    simp only [lexeme, text, String.toList_ofList]
  have hspelled : (name (String.ofList (c :: run))).Spelled :=
    ⟨c, run, String.toList_ofList, hstart, hrun⟩
  have hwritten := Written.whole hspelled hstops
  rwa [hlexeme] at hwritten

theorem Written.double {t : Token} {c d : Char} {cs : List Char} (spelled : t.Spelled)
    (hlexeme : t.lexeme = [c, d]) (hstops : ∀ e, t.continuedBy e = false)
    (hhead : cs.head? = some d) : Written t (c :: cs.take 1) (cs.drop 1) := by
  obtain ⟨more, rfl⟩ := List.head?_eq_some_iff.mp hhead
  rw [List.take_succ_cons, List.take_zero, List.drop_succ_cons, List.drop_zero, ← hlexeme]
  exact .whole spelled fun e _ => hstops e

theorem written_of_munch? {c : Char} {cs : List Char} {t : Token} {n : Nat}
    (h : munch? c cs = some (t, n)) : Written t (c :: cs.take n) (cs.drop n) := by
  unfold munch? at h
  split at h
  -- The symbols that start no longer one.
  case h_1 | h_2 | h_3 | h_4 | h_5 | h_6 | h_7 | h_8 | h_9 =>
    cases h
    exact .single trivial rfl fun _ _ => rfl
  -- The signs `=` and `==`.
  case h_10 =>
    split at h
    case isTrue heq => cases h; exact .double trivial rfl (fun _ => rfl) heq
    case isFalse heq =>
      cases h
      refine .single trivial rfl fun d hd => decide_eq_false ?_
      rintro rfl
      exact heq hd
  -- The signs `<=`, `<>` and `<`.
  case h_11 =>
    split at h
    case isTrue heq => cases h; exact .double trivial rfl (fun _ => rfl) heq
    case isFalse heq =>
      split at h
      case isTrue hgt => cases h; exact .double trivial rfl (fun _ => rfl) hgt
      case isFalse hgt =>
        cases h
        refine .single trivial rfl fun d hd => ?_
        simp only [continuedBy, Bool.or_eq_false_iff, decide_eq_false_iff_not]
        constructor
        · rintro rfl; exact heq hd
        · rintro rfl; exact hgt hd
  -- The signs `>=` and `>`.
  case h_12 =>
    split at h
    case isTrue heq => cases h; exact .double trivial rfl (fun _ => rfl) heq
    case isFalse heq =>
      cases h
      refine .single trivial rfl fun d hd => decide_eq_false ?_
      rintro rfl
      exact heq hd
  case h_13 =>
    cases h
    exact written_string cs
  -- No symbol and no quote: a number or a name, or no token at all.
  case h_14 =>
    split at h
    case isTrue hnumber => cases h; exact written_number hnumber
    case isFalse =>
      split at h
      case isTrue hname => cases h; exact written_name hname
      case isFalse => exact absurd h (by simp)

/-! ## What is written is taken -/

theorem munch?_of_startsNumber {c : Char} {cs : List Char} (h : startsNumber c cs = true) :
    munch? c cs = some (.number (String.ofList (c :: cs.takeWhile isNumberPart)),
      (cs.takeWhile isNumberPart).length) := by
  unfold munch?
  split
  case h_14 => rw [if_pos h]
  all_goals exact absurd h (by simp [startsNumber])

theorem startsNumber_append {c : Char} {cs : List Char} (more : List Char)
    (h : startsNumber c cs = true) : startsNumber c (cs ++ more) = true := by
  cases cs with
  | cons d ds => exact h
  | nil =>
    have hdigit : c.isDigit = true := by simpa [startsNumber] using h
    simp only [startsNumber, hdigit, Bool.true_or]

theorem startsNumber_of_startsName {c : Char} (cs : List Char) (h : startsName c = true) :
    startsNumber c cs = false := by
  have hdot : c ≠ '.' := by
    rintro rfl
    exact absurd h (by decide)
  have hdigit : c.isDigit = false := by
    by_contra hc
    have hc : 48 ≤ c.val ∧ c.val ≤ 57 := by simpa [Char.isDigit] using hc
    simp only [startsName, Char.isAlpha, Char.isUpper, Char.isLower, Bool.or_eq_true,
      Bool.and_eq_true, decide_eq_true_eq] at h
    rcases h with (h | rfl) | rfl
    · simp only [ge_iff_le, UInt32.le_iff_toNat_le] at h hc
      simp at h hc
      omega
    · exact absurd hc (by decide)
    · exact absurd hc (by decide)
  simp [startsNumber, hdigit, hdot]

theorem munch?_of_startsName {c : Char} {cs : List Char} (h : startsName c = true) :
    munch? c cs = some (.name (String.ofList (c :: cs.takeWhile isNamePart)),
      (cs.takeWhile isNamePart).length) := by
  unfold munch?
  split
  case h_14 =>
    rw [if_neg (by rw [startsNumber_of_startsName cs h]; exact Bool.false_ne_true), if_pos h]
  all_goals exact absurd h (by decide)

theorem munch?_quote (contents more : List Char) (hquoteless : '"' ∉ contents)
    (hstops : ∀ c ∈ more.head?, c = '"') :
    munch? '"' (contents ++ more) =
      some (.string (String.ofList contents), contents.length + 1) := by
  have htake : (contents ++ more).takeWhile (· ≠ '"') = contents := by
    refine takeWhile_append_of_stops ?_ ?_
    · intro c hc
      refine decide_eq_true ?_
      rintro rfl
      exact hquoteless hc
    · intro c hc
      simp [hstops c hc]
  simp only [munch?, htake]

theorem munch?_of_written {t : Token} {c : Char} {cs more : List Char}
    (h : Written t (c :: cs) more) :
    ∃ n, munch? c (cs ++ more) = some (t, n) ∧ (cs ++ more).take n = cs ∧
      (cs ++ more).drop n = more := by
  generalize hlexeme : c :: cs = lexeme at h
  -- A run in the lexeme is the whole run in the text, since what follows does not go on with it.
  cases h with
  | unclosed hquoteless =>
    cases hlexeme
    refine ⟨cs.length + 1, munch?_quote cs [] hquoteless (fun c hc => absurd hc (by simp)), ?_, ?_⟩
    · rw [List.append_nil, List.take_of_length_le (Nat.le_succ _)]
    · rw [List.append_nil, List.drop_eq_nil_of_le (Nat.le_succ _)]
  | whole spelled stops =>
    cases t with
    | name text =>
      obtain ⟨d, ds, htext, hstart, hparts⟩ := spelled
      simp only [lexeme, Token.text, htext] at hlexeme
      cases hlexeme
      have htake : (cs ++ more).takeWhile isNamePart = cs := takeWhile_append_of_stops hparts stops
      refine ⟨cs.length, ?_, List.take_left, List.drop_left⟩
      rw [munch?_of_startsName hstart, htake, ← htext, String.ofList_toList]
    | number text =>
      obtain ⟨d, ds, htext, hstart, hparts⟩ := spelled
      simp only [lexeme, Token.text, htext] at hlexeme
      cases hlexeme
      have htake : (cs ++ more).takeWhile isNumberPart = cs :=
        takeWhile_append_of_stops hparts stops
      refine ⟨cs.length, ?_, List.take_left, List.drop_left⟩
      rw [munch?_of_startsNumber (startsNumber_append more hstart), htake, ← htext, String.ofList_toList]
    | string contents =>
      simp only [lexeme, List.cons_append] at hlexeme
      cases hlexeme
      refine ⟨contents.toList.length + 1, ?_, ?_, ?_⟩
      · rw [List.append_assoc, munch?_quote contents.toList _ spelled
          (fun c hc => by simpa [eq_comm] using hc), String.ofList_toList]
      · rw [List.take_left' (by simp)]
      · rw [List.drop_left' (by simp)]
    | op o =>
      cases o with
      | eq =>
        obtain ⟨rfl, rfl⟩ := List.cons.inj (show c :: cs = ['='] from hlexeme)
        have hne : more.head? ≠ some '=' := fun heq => absurd (stops '=' heq) (by decide)
        exact ⟨0, by simp only [List.nil_append, munch?, if_neg hne], rfl, rfl⟩
      | lt =>
        obtain ⟨rfl, rfl⟩ := List.cons.inj (show c :: cs = ['<'] from hlexeme)
        have hne : more.head? ≠ some '=' := fun heq => absurd (stops '=' heq) (by decide)
        have hgt : more.head? ≠ some '>' := fun heq => absurd (stops '>' heq) (by decide)
        exact ⟨0, by simp only [List.nil_append, munch?, if_neg hne, if_neg hgt], rfl, rfl⟩
      | gt =>
        obtain ⟨rfl, rfl⟩ := List.cons.inj (show c :: cs = ['>'] from hlexeme)
        have hne : more.head? ≠ some '=' := fun heq => absurd (stops '=' heq) (by decide)
        exact ⟨0, by simp only [List.nil_append, munch?, if_neg hne], rfl, rfl⟩
      | _ => cases hlexeme; exact ⟨_, rfl, rfl, rfl⟩
    | ending => exact absurd spelled id
    | _ => cases hlexeme; exact ⟨_, rfl, rfl, rfl⟩

theorem munch?_of_isGap {c : Char} {cs : List Char} (h : isGap c = true) : munch? c cs = none := by
  simp only [isGap, Bool.or_eq_true, decide_eq_true_eq] at h
  rcases h with ((rfl | rfl) | rfl) | rfl <;> rfl

theorem Written.spelled {t : Token} {lexeme more : List Char} (h : Written t lexeme more) :
    t.Spelled := by
  cases h with
  | whole spelled => exact spelled
  | unclosed quoteless => simpa only [Spelled, String.toList_ofList] using quoteless

theorem Written.stops {t : Token} {lexeme more : List Char} (h : Written t lexeme more) :
    ∀ c ∈ more.head?, t.continuedBy c = false := by
  cases h with
  | whole _ stops => exact stops
  | unclosed => exact fun c hc => absurd hc (by simp)

theorem Written.lexeme_ne_nil {t : Token} {lexeme more : List Char} (h : Written t lexeme more) :
    lexeme ≠ [] := by
  cases h with
  | unclosed hquoteless => exact List.cons_ne_nil _ _
  | whole spelled stops =>
    cases t with
    | name text =>
      obtain ⟨c, cs, htext, -⟩ := spelled
      simp only [Token.lexeme, Token.text, htext]
      exact List.cons_ne_nil c cs
    | number text =>
      obtain ⟨c, cs, htext, -⟩ := spelled
      simp only [Token.lexeme, Token.text, htext]
      exact List.cons_ne_nil c cs
    | string contents => exact List.cons_ne_nil _ _
    | op o => cases o <;> exact List.cons_ne_nil _ _
    | ending => exact absurd spelled id
    | _ => exact List.cons_ne_nil _ _

/-- What may stand between tokens starts none. -/
theorem Written.exists_cons {t : Token} {lexeme more : List Char} (h : Written t lexeme more) :
    ∃ c cs, lexeme = c :: cs ∧ isGap c = false := by
  obtain ⟨c, cs, rfl⟩ := List.exists_cons_of_ne_nil h.lexeme_ne_nil
  refine ⟨c, cs, rfl, ?_⟩
  by_contra hgap
  obtain ⟨n, hmunch, -⟩ := munch?_of_written h
  rw [munch?_of_isGap (Bool.not_eq_false _ ▸ hgap)] at hmunch
  exact absurd hmunch (by simp)

end FormulaTree.Token
