import FormulaTree.Proofs.Outline.MarkedTree
import FormulaTree.Proofs.Session.History

/-!
# What an error leaves of a session

A command that is answered by an error leaves the session as it is. There are two exceptions: a
formula that is rejected takes the place of the one before, and the settings can be changed while
the formula is rejected, when there is no outline that could be lost.
-/

namespace FormulaTree

/-! ## The numbers of blocks -/

namespace Command

/-- Whether a text writes a number: in decimal digits, with a plus sign in front at most. -/
def Writes (argument : String) (n : Nat) : Prop :=
  ∃ digits : List Char, (argument.toList = digits ∨ argument.toList = '+' :: digits) ∧
    digits ≠ [] ∧ (∀ c ∈ digits, c.isDigit = true) ∧ Nat.ofDigitChars 10 digits 0 = n

/-- The text without a plus sign in front. -/
def unsigned : List Char → List Char
  | '+' :: cs => cs
  | cs => cs

theorem unsigned_of_isDigit {cs : List Char} (h : ∀ c ∈ cs, c.isDigit = true) :
    unsigned cs = cs := by
  unfold unsigned
  split
  · exact absurd (h '+' List.mem_cons_self) (by decide)
  · rfl

theorem writes_iff {argument : String} {n : Nat} :
    Writes argument n ↔ unsigned argument.toList ≠ [] ∧
      (∀ c ∈ unsigned argument.toList, c.isDigit = true) ∧
      Nat.ofDigitChars 10 (unsigned argument.toList) 0 = n := by
  constructor
  · rintro ⟨digits, heq | heq, hne, hdigits, hn⟩
    · rw [heq, unsigned_of_isDigit hdigits]
      exact ⟨hne, hdigits, hn⟩
    · rw [heq]
      exact ⟨hne, hdigits, hn⟩
  · rintro ⟨hne, hdigits, hn⟩
    refine ⟨_, ?_, hne, hdigits, hn⟩
    unfold unsigned
    split
    · rename_i heq
      exact .inr heq
    · exact .inl rfl

theorem number?_eq (argument : String) :
    number? argument =
      if (unsigned argument.toList).isEmpty || !(unsigned argument.toList).all Char.isDigit then none
      else if Nat.ofDigitChars 10 (unsigned argument.toList) 0 < 2 ^ 64 then
        some (Nat.ofDigitChars 10 (unsigned argument.toList) 0)
      else none := by
  have hvalue (cs : List Char) :
      Nat.ofDigitChars 10 cs 0 = cs.foldl (fun n c => n * 10 + (c.toNat - '0'.toNat)) 0 := by
    rw [Nat.ofDigitChars_eq_foldl]
    simp only [Nat.mul_comm]
  rw [hvalue]
  rfl

/-- A number of a block is any number below `2 ^ 64` that the argument writes. -/
theorem number?_eq_some_iff {argument : String} {n : Nat} :
    number? argument = some n ↔ Writes argument n ∧ n < 2 ^ 64 := by
  rw [number?_eq, writes_iff, Option.ite_none_left_eq_some, Option.ite_none_right_eq_some,
    Option.some_inj]
  simp only [Bool.or_eq_true, not_or, List.isEmpty_iff, Bool.not_eq_true', Bool.not_eq_false,
    List.all_eq_true]
  constructor
  · rintro ⟨⟨hne, hdigits⟩, hlt, rfl⟩
    exact ⟨⟨hne, hdigits, rfl⟩, hlt⟩
  · rintro ⟨⟨hne, hdigits, rfl⟩, hlt⟩
    exact ⟨⟨hne, hdigits⟩, hlt, rfl⟩

/-- The next number is one too large. -/
example : number? "+18446744073709551615" = some 18446744073709551615 ∧
    number? "18446744073709551616" = none := by
  decide +kernel

/-- There is no such number where no number is written, or one that is too large. -/
theorem number?_eq_none {argument : String} (h : ∀ n, Writes argument n → 2 ^ 64 ≤ n) :
    number? argument = none := by
  cases hnumber : number? argument with
  | none => rfl
  | some n =>
    obtain ⟨hwrites, hlt⟩ := number?_eq_some_iff.mp hnumber
    have hle := h n hwrites
    omega

end Command

namespace Session

variable {s : Session} {c : Command} {message : String}

/-! ## One command -/

/-- Whether the formula of a session is rejected, so that there is no outline. -/
structure IsRejected (s : Session) : Prop where
  outline?_eq_none : s.outline? = none
  exists_error : ∃ source e, s.source? = some source ∧ Formula.parse source = .error e

/-- What a command that is answered by an error makes of a session. -/
inductive AfterError (s : Session) : Command → Session → Prop where
  /-- A formula that is rejected takes the place of the one before and leaves no outline. -/
  | rejected {source : String} {e : FormulaError} (h : Formula.parse source = .error e) :
      AfterError s (.formula source) { s with source? := some source, outline? := none }
  /-- While the formula is rejected, the language can be changed. -/
  | language {code : String} {locale : Locale} (hcode : Locale.ofCode code = .ok locale)
      (h : s.IsRejected) :
      AfterError s (.language code) { s with settings := { s.settings with locale } }
  /-- While the formula is rejected, the choice of labels can be changed. -/
  | labels {code : String} {mode : Label.Mode} (hcode : Label.Mode.ofCode code = .ok mode)
      (h : s.IsRejected) :
      AfterError s (.labels code) { s with settings := { s.settings with mode } }
  /-- Every other command leaves the session as it is. -/
  | same {c : Command} (hformula : c.isFormula = false) (hchange : c.isChange = false) :
      AfterError s c s

theorem refresh_error {source : String} (hsource : s.source? = some source)
    (h : s.refresh.1 = .error message) :
    (∃ e, Formula.parse source = .error e) ∧ s.refresh.2 = { s with outline? := none } := by
  unfold refresh at h ⊢
  rw [hsource] at h ⊢
  dsimp only at h ⊢
  cases hparse : Formula.parse source with
  | ok e =>
    rw [Outline.ofSource_of_parse_ok hparse] at h
    exact absurd h (by simp)
  | error e =>
    rw [Outline.ofSource_of_parse_error hparse]
    exact ⟨⟨e, rfl⟩, rfl⟩

/-- After a change of the settings an error tells that there is a formula that is rejected. -/
theorem afterChange_error {settings : Settings} {note : String}
    (hs : ∀ source e, s.source? = some source → Formula.parse source = .error e →
      s.outline? = none)
    (h : ({ s with settings }.afterChange note).1 = .error message) :
    s.IsRejected ∧ ({ s with settings }.afterChange note).2 = { s with settings } := by
  rcases Option.eq_none_or_eq_some s.source? with hsource | ⟨source, hsource⟩
  · have hprint : { s with settings }.afterChange note = (.print note, { s with settings }) := by
      simp only [afterChange, hsource]
    rw [hprint] at h
    exact absurd h (by simp)
  · have hrefresh : { s with settings }.afterChange note = { s with settings }.refresh := by
      simp only [afterChange, hsource]
    rw [hrefresh] at h ⊢
    obtain ⟨⟨e, he⟩, hnext⟩ := refresh_error (s := { s with settings }) hsource h
    have hnone := hs source e hsource he
    -- The outline that is dropped was not there.
    rw [hnext]
    exact ⟨⟨hnone, source, e, hsource, he⟩, by rw [hnone]⟩

theorem change_error {f : Outline → Outline} (h : (s.change f).1 = .error message) :
    (s.change f).2 = s := by
  unfold change at h ⊢
  cases houtline : s.outline? with
  | none => rfl
  | some o =>
    rw [houtline] at h
    exact absurd h (by simp)

theorem fold_error {action : FoldAction} {id : Nat} (h : (s.fold action id).1 = .error message) :
    (s.fold action id).2 = s := by
  unfold fold at h ⊢
  cases houtline : s.outline? with
  | none => rfl
  | some o =>
    rw [houtline] at h
    dsimp only at h ⊢
    split at h
    · exact absurd h (by simp)
    · rfl

/-- What an error leaves of a session in which a formula that is rejected has no outline. -/
theorem run_error (hs : ∀ source e, s.source? = some source → Formula.parse source = .error e →
      s.outline? = none)
    (h : (s.run c).1 = .error message) : AfterError s c (s.run c).2 := by
  cases c with
  | formula source =>
    obtain ⟨⟨e, he⟩, hnext⟩ := refresh_error (s := { s with source? := some source }) rfl h
    rw [run, hnext]
    exact .rejected he
  | language code =>
    cases hcode : Locale.ofCode code with
    | ok locale =>
      simp only [run, hcode] at h ⊢
      obtain ⟨hrejected, hnext⟩ := afterChange_error hs h
      rw [hnext]
      exact .language hcode hrejected
    | error e =>
      simp only [run, hcode]
      exact .same rfl (by simp [Command.isChange, hcode, Except.toOption])
  | labels code =>
    cases hcode : Label.Mode.ofCode code with
    | ok mode =>
      simp only [run, hcode] at h ⊢
      obtain ⟨hrejected, hnext⟩ := afterChange_error hs h
      rw [hnext]
      exact .labels hcode hrejected
    | error e =>
      simp only [run, hcode]
      exact .same rfl (by simp [Command.isChange, hcode, Except.toOption])
  | fold action argument =>
    cases hnumber : Command.number? argument with
    | none =>
      simp only [run, hnumber]
      exact .same rfl rfl
    | some id =>
      simp only [run, hnumber] at h ⊢
      rw [fold_error h]
      exact .same rfl rfl
  | collapse | expand | header =>
    unfold run at h ⊢
    rw [change_error h]
    exact .same rfl rfl
  | quit | blocks | html | inline | unknown word => exact .same rfl rfl

/-- The call that is asked for has to be there. -/
theorem fold_of_no_call {o : Outline} {action : FoldAction} {id : Nat}
    (houtline : s.outline? = some o) (hid : o.bits.length ≤ id) :
    s.fold action id = (.error ("no block " ++ toString id), s) := by
  unfold fold
  rw [houtline]
  cases action with
  | fold | unfold => simp only [Outline.setOpen?_of_ge hid]
  | toggle => simp only [Outline.toggle?, Outline.setOpen?_of_ge hid]

/-! ## Any session -/

namespace Tracks

variable {settings : Settings} {lines : List String}

/-- A formula that is rejected has no outline. -/
theorem outline?_of_rejected (h : Tracks settings lines s) {source : String} {e : FormulaError}
    (hsource : s.source? = some source) (he : Formula.parse source = .error e) :
    s.outline? = none := by
  have hexpand := h.expandAll_eq
  rw [hsource, made, Option.bind_some, Outline.ofSource_of_parse_error he] at hexpand
  exact Option.map_eq_none_iff.mp hexpand

/-- A number is that of a call if and only if there is a mark for it. -/
theorem mem_calls_iff (h : Tracks settings lines s) {o : Outline} (ho : s.outline? = some o)
    (id : Nat) : id ∈ o.calls.map CallInfo.id ↔ id < o.bits.length := by
  obtain ⟨line, -, houtline⟩ := h.ofSource_eq ho
  obtain ⟨e, -, heq⟩ := exists_of_map_eq_ok houtline
  -- Opening every call keeps the blocks.
  have hroot : o.root = (Outline.ofExpr s.settings (Text.trim (Text.trim line)) e).root := by
    show o.expandAll.root = _
    rw [heq]
  rw [Outline.map_id_calls _ _ _ hroot, List.mem_range, Outline.length_bits, hroot]
  show id < e.blockCount ↔ id < (Block.ofExpr s.settings.label 0 e).callCount
  rw [Block.callCount_ofExpr]

end Tracks

/-- An error does no damage to a session. It leaves the session as it is, but for a formula that is
rejected and for a change of the settings while the formula is rejected. What cannot be made sense
of is answered by an error, and changes nothing; and what ends the session or only shows it changes
nothing whatever is answered. -/
theorem error_does_no_damage (settings : Settings) (lines : List String) (line : String) :
    let s := (new settings).after lines
    let c := Command.ofLine line
    let answer := (s.handle line).1
    let next := (s.handle line).2
    (∀ message, answer = .error message → AfterError s c next) ∧
    (∀ word, c = .unknown word →
      answer = .error ("unknown command: :" ++ word) ∧ next = s) ∧
    (∀ code e, c = .language code → Locale.ofCode code = .error e →
      answer = .error e.message ∧ next = s) ∧
    (∀ code e, c = .labels code → Label.Mode.ofCode code = .error e →
      answer = .error e.message ∧ next = s) ∧
    (∀ action argument, c = .fold action argument →
      (∀ n, Command.Writes argument n → 2 ^ 64 ≤ n) →
        answer = .error (":" ++ action.word ++ " needs a block number (see :blocks)") ∧ next = s) ∧
    (∀ action argument n o, c = .fold action argument → Command.Writes argument n → n < 2 ^ 64 →
      s.outline? = some o → n ∉ o.calls.map CallInfo.id →
        answer = .error ("no block " ++ toString n) ∧ next = s) ∧
    (c = .quit ∨ c = .blocks ∨ c = .html ∨ c = .inline → next = s) := by
  intro s c answer next
  have htracks : Tracks settings lines s := tracks_after settings lines
  have of_run {reply : Reply} (h : s.run c = (reply, s)) : answer = reply ∧ next = s := by
    show (s.run c).1 = reply ∧ (s.run c).2 = s
    rw [h]
    exact ⟨rfl, rfl⟩
  refine ⟨?_, ?_, ?_, ?_, ?_, ?_, ?_⟩
  · intro message h
    exact run_error (fun source e => htracks.outline?_of_rejected) h
  · intro word hc
    apply of_run
    rw [hc, run]
  · intro code e hc he
    apply of_run
    rw [hc, run, he]
  · intro code e hc he
    apply of_run
    rw [hc, run, he]
  · intro action argument hc hnone
    apply of_run
    rw [hc, run, Command.number?_eq_none hnone]
  · intro action argument n o hc hwrites hlt ho hn
    have hnumber := Command.number?_eq_some_iff.mpr ⟨hwrites, hlt⟩
    have hlength : o.bits.length ≤ n := by
      by_contra hge
      exact hn ((htracks.mem_calls_iff ho n).mpr (by omega))
    apply of_run
    rw [hc, run, hnumber]
    exact fold_of_no_call ho hlength
  · intro hc
    have hrun : s.run c = ((s.run c).1, s) := by
      rcases hc with hc | hc | hc | hc <;> rw [hc] <;> rfl
    exact (of_run hrun).2

end Session

end FormulaTree
