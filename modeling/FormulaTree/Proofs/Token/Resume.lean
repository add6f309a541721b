import FormulaTree.Proofs.Translation

/-!
# Scanning on

A scanner can be run again after it stopped. It finds what a fresh scanner finds in the characters
that are left, blanks and a mark in front of them included, and reports the places of the whole text.
Behind the last token there is only the end, and a character that starts no token stays in the way
unless it is a blank.
-/

namespace FormulaTree

theorem Text.EndsSolid.of_append {front cs : List Char} (h : EndsSolid (front ++ cs)) :
    EndsSolid cs := by
  intro c hc
  have hne : cs ≠ [] := by
    rintro rfl
    exact absurd hc (by simp)
  apply h c
  rwa [List.getLast?_append_of_ne_nil front hne]

namespace Scanner

variable {s : Scanner} {source : String}

/-! ## How far a scanner is -/

theorem skip_skip (s : Scanner) (m n : Nat) : (s.skip m).skip n = s.skip (m + n) := by
  simp only [skip, List.drop_drop, List.take_add, Position.after_append]

theorem skip_length_append {front rest : List Char} (h : s.rest = front ++ rest) :
    s.skip front.length = ⟨rest, s.place.after front⟩ := by
  rw [skip, h, List.drop_left, List.take_left]

/-- The number of characters of a text that a scanner of it has passed. -/
def passed (source : String) (s : Scanner) : Nat :=
  (ofString source).rest.length - s.rest.length

theorem skip_passed (source : String) (n : Nat) :
    (ofString source).skip (passed source ((ofString source).skip n)) =
      (ofString source).skip n := by
  have hlength : passed source ((ofString source).skip n) =
      min n (ofString source).rest.length := by
    rw [passed, skip, List.length_drop]
    omega
  rw [hlength, skip, skip]
  rcases Nat.le_total n (ofString source).rest.length with hle | hle
  · rw [Nat.min_eq_left hle]
  · rw [Nat.min_eq_right hle, List.drop_eq_nil_of_le hle, List.drop_length,
      List.take_of_length_le hle, List.take_length]

/-! ## One run -/

/-- A run passes over a front of what is left and is stuck behind it. -/
theorem exists_stuck (s : Scanner) : ∃ front rest done, s.rest = front ++ rest ∧ Stuck rest ∧
    s.run = scan done (s.place.after front) rest := by
  obtain ⟨blanks, mark, body, hrest, hblanks, hstops, hmark⟩ := exists_lead s.rest
  obtain ⟨xs, gap, rest, rfl, hfit, hgap, hstuck⟩ := inPieces body
  refine ⟨blanks ++ mark ++ Piece.text xs ++ gap, rest,
    (Piece.placed (s.place.after (blanks ++ mark)) xs).reverse, ?_, hstuck, ?_⟩
  · rw [hrest]
    simp only [List.append_assoc]
  · obtain ⟨cs, place⟩ := s
    obtain rfl : cs = _ := hrest
    rw [run, lead_append place hblanks hstops hmark]
    dsimp only
    rw [scan_pieces _ _ hfit, scan_gap _ _ _ hgap, List.append_nil,
      Position.after_append _ (blanks ++ mark ++ Piece.text xs),
      Position.after_append _ (blanks ++ mark)]

/-- A scanner in front of nothing finds the end, and stays. -/
theorem run_nil (place : Position) :
    (Scanner.mk [] place).run = ⟨.ok [⟨.ending, place⟩], ⟨[], place⟩⟩ :=
  scan_nil [] place

/-- A scanner in front of a character that starts no token stays, unless it is a blank. -/
theorem run_stuck {c : Char} {cs : List Char} (place : Position) (h : Stuck (c :: cs))
    (hblank : Text.isBlank c = false) :
    (Scanner.mk (c :: cs) place).run = ⟨.error ⟨c, place⟩, ⟨c :: cs, place⟩⟩ := by
  -- The sign `=` starts a token, so there is no mark to pass over either.
  have hmark : IsMark [] (c :: cs) := by
    refine Or.inr ⟨rfl, fun hhead => ?_⟩
    obtain rfl : c = '=' := Option.some.inj hhead
    have hmunch := (h '=' cs rfl).2
    simp only [Token.munch?] at hmunch
    split at hmunch <;> exact absurd hmunch (by simp)
  have hlead : lead ⟨c :: cs, place⟩ = ⟨c :: cs, place⟩ :=
    @lead_append [] [] (c :: cs) place (by simp) (fun d hd => by cases hd; exact hblank) hmark
  rw [run, hlead]
  exact scan_stuck [] place h

/-- What a run comes to: the end of the text, or a character in the way. -/
theorem run_cases (s : Scanner) : ∃ front rest, s.rest = front ++ rest ∧
    s.run.scanner = ⟨rest, s.place.after front⟩ ∧
    ((rest = [] ∧ ∃ ts, s.run.result = .ok (ts ++ [⟨.ending, s.run.scanner.place⟩])) ∨
      ∃ c cs, rest = c :: cs ∧ Stuck (c :: cs) ∧
        s.run.result = .error ⟨c, s.run.scanner.place⟩) := by
  obtain ⟨front, rest, done, hrest, hstuck, hrun⟩ := s.exists_stuck
  refine ⟨front, rest, hrest, ?_⟩
  cases rest with
  | nil =>
    rw [hrun, scan_nil]
    refine ⟨rfl, .inl ⟨rfl, done.reverse, ?_⟩⟩
    rw [List.reverse_cons]
  | cons c cs =>
    rw [hrun, scan_stuck done _ hstuck]
    exact ⟨rfl, .inr ⟨c, cs, rfl, hstuck, rfl⟩⟩

/-- After the end there is only the end. -/
theorem run_of_ok {ts : List Token.Placed} (h : s.run.result = .ok ts) :
    ∃ place, ts.getLast? = some ⟨.ending, place⟩ ∧
      s.run.scanner.run = ⟨.ok [⟨.ending, place⟩], s.run.scanner⟩ := by
  obtain ⟨front, rest, -, hscanner, ⟨rfl, us, hresult⟩ | ⟨c, cs, -, -, hresult⟩⟩ := s.run_cases
  · rw [h] at hresult
    obtain rfl := Except.ok.inj hresult
    refine ⟨s.run.scanner.place, List.getLast?_append_of_ne_nil _ (List.cons_ne_nil _ _), ?_⟩
    rw [hscanner]
    exact run_nil _
  · rw [h] at hresult
    exact absurd hresult (by simp)

/-- A character that starts no token and is no blank is not passed. -/
theorem run_of_error {e : StrayCharacter} (h : s.run.result = .error e)
    (hblank : Text.isBlank e.char = false) :
    s.run.scanner.run = ⟨.error e, s.run.scanner⟩ := by
  obtain ⟨front, rest, -, hscanner, ⟨-, us, hresult⟩ | ⟨c, cs, rfl, hstuck, hresult⟩⟩ := s.run_cases
  · rw [h] at hresult
    exact absurd hresult (by simp)
  · rw [h, hscanner] at hresult
    obtain rfl := Except.error.inj hresult
    rw [hscanner]
    exact run_stuck _ hstuck hblank

/-! ## Any number of runs -/

/-- The scanner after some runs, whatever they came to. -/
def after (s : Scanner) (runs : Nat) : Scanner :=
  (fun s => s.run.scanner)^[runs] s

theorem after_succ (s : Scanner) (runs : Nat) : s.after (runs + 1) = (s.after runs).run.scanner :=
  Function.iterate_succ_apply' _ runs s

/-- A scanner only moves on. -/
theorem exists_skip (s : Scanner) (runs : Nat) : ∃ n, s.after runs = s.skip n := by
  induction runs with
  | zero => exact ⟨0, rfl⟩
  | succ runs ih =>
    obtain ⟨m, hm⟩ := ih
    obtain ⟨front, rest, hrest, hscanner, -⟩ := (s.after runs).run_cases
    refine ⟨m + front.length, ?_⟩
    rw [after_succ, hscanner, ← skip_length_append hrest, hm, skip_skip]

/-- A scanner that a run leaves where it is stays there. -/
theorem after_of_run_eq {result : Except StrayCharacter (List Token.Placed)}
    (h : s.run = ⟨result, s⟩) (runs : Nat) : s.after runs = s :=
  Function.iterate_fixed (congrArg Scan.scanner h) runs

theorem exists_source_eq (source : String) :
    ∃ back, source.toList = (ofString source).rest ++ back ∧
      ∀ c ∈ back, Text.isBlank c = true :=
  Text.exists_trailing source.toList

/-- A scanner of the characters that are left has nothing else left than this one. -/
theorem ofString_drop (source : String) {n : Nat} (h : n ≤ (ofString source).rest.length) :
    ofString (String.ofList (source.toList.drop n)) =
      ⟨((ofString source).skip n).rest, .start⟩ := by
  obtain ⟨back, hsource, hback⟩ := exists_source_eq source
  have hsolid : Text.EndsSolid ((ofString source).rest.take n ++ (ofString source).rest.drop n) := by
    rw [List.take_append_drop]
    exact Text.endsSolid_dropBlanksRight source.toList
  rw [ofString, String.toList_ofList, hsource, List.drop_append_of_le_length h,
    Text.dropBlanksRight_append _ hback, Text.dropBlanksRight_of_endsSolid hsolid.of_append]
  rfl

/-- A scanner stands behind the characters that it has passed. -/
theorem place_skip (source : String) {n : Nat} (h : n ≤ (ofString source).rest.length) :
    ((ofString source).skip n).place = .behind (source.toList.take n) := by
  obtain ⟨back, hsource, -⟩ := exists_source_eq source
  rw [hsource, List.take_append_of_le_length h, ← Position.after_start]
  rfl

/-- A scanner that was run before finds what a fresh one finds in the characters that are left, and
tells its places in the whole text. After the end it finds only the end, and at a character that
starts no token and is no blank it stops again and again. -/
theorem resumed_run_is_fresh (source : String) (runs : Nat) :
    let s := (ofString source).after runs
    let n := passed source s
    s = (ofString source).skip n ∧
      s.run = (ofString (String.ofList (source.toList.drop n))).run.within
        (.behind (source.toList.take n)) ∧
      (∀ ts, s.run.result = .ok ts → ∃ place, ts.getLast? = some ⟨.ending, place⟩ ∧
        ∀ more, (s.run.scanner.after more).run = ⟨.ok [⟨.ending, place⟩], s.run.scanner⟩) ∧
      ∀ e, s.run.result = .error e → Text.isBlank e.char = false →
        ∀ more, (s.run.scanner.after more).run = ⟨.error e, s.run.scanner⟩ := by
  intro s n
  have hskip : s = (ofString source).skip n := by
    obtain ⟨m, hm⟩ := exists_skip (ofString source) runs
    have hs : s = (ofString source).skip m := hm
    rw [show n = passed source s from rfl, hs, skip_passed]
  refine ⟨hskip, ?_, ?_, ?_⟩
  · have hle : n ≤ (ofString source).rest.length := Nat.sub_le _ _
    rw [ofString_drop source hle, ← place_skip source hle, ← hskip]
    exact run_within s.place s.rest
  · intro ts hts
    obtain ⟨place, hlast, hrun⟩ := run_of_ok hts
    refine ⟨place, hlast, fun more => ?_⟩
    rw [after_of_run_eq hrun, hrun]
  · intro e he hblank more
    have hrun := run_of_error he hblank
    rw [after_of_run_eq hrun, hrun]

/-- A blank that is no gap stops the first run; the second one passes over it and over a mark. -/
example : ((ofString "1\n\u00a0= 2 ").after 1).run.result =
    .ok [⟨.number "2", ⟨2, 4⟩⟩, ⟨.ending, ⟨2, 5⟩⟩] := by
  cbv

end Scanner

end FormulaTree
