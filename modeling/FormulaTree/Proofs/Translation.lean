import FormulaTree.Formula
import FormulaTree.Proofs.Token.Partition

/-!
# Formulas that start further on

A formula behind some blanks is scanned and read like the formula alone. Every place that is
reported, of a token or of an error, is then the place in the whole text.
-/

namespace FormulaTree

/-! ## Scanning -/

def Token.Placed.within (base : Position) (t : Token.Placed) : Token.Placed :=
  ⟨t.token, base.within t.place⟩

def StrayCharacter.within (base : Position) (e : StrayCharacter) : StrayCharacter :=
  ⟨e.char, base.within e.place⟩

namespace Scanner

def within (base : Position) (s : Scanner) : Scanner :=
  ⟨s.rest, base.within s.place⟩

def Scan.within (base : Position) (s : Scan) : Scan :=
  ⟨(s.result.map (List.map (·.within base))).mapError (·.within base), s.scanner.within base⟩

/-- Where scanning starts makes a difference to places only. -/
theorem scan_within (base : Position) (done : List Token.Placed) (place : Position)
    (cs : List Char) (h : place.IsPlace) :
    scan (done.map (·.within base)) (base.within place) cs = (scan done place cs).within base := by
  fun_induction scan done place cs with
  | case1 done place =>
    have hreverse : List.map (Token.Placed.within base) (⟨.ending, place⟩ :: done).reverse =
        (List.map (Token.Placed.within base) (⟨.ending, place⟩ :: done)).reverse :=
      List.map_reverse
    rw [scan, Scan.within]
    simp only [Except.map, Except.mapError, hreverse]
    rfl
  | case2 done place c cs hgap ih =>
    rw [scan, if_pos hgap, ← Position.within_next base h]
    exact ih (h.next c)
  | case3 done place c cs hgap hmunch =>
    rw [scan, if_neg hgap, hmunch]
    rfl
  | case4 done place c cs hgap t n hmunch ih =>
    -- The characters of the token are walked over from either place.
    have hnext := h.next c
    rw [scan, if_neg hgap, hmunch]
    show scan (List.map (Token.Placed.within base) (⟨t, place⟩ :: done))
      (((base.within place).next c).after (cs.take n)) (cs.drop n) = _
    rw [← Position.within_next base h, ← Position.within_after base hnext]
    exact ih (hnext.after (cs.take n))

theorem run_within (base : Position) (cs : List Char) :
    (Scanner.mk cs base).run = (Scanner.mk cs .start).run.within base := by
  obtain ⟨blanks, mark, rest, rfl, hblanks, hstops, hmark⟩ := exists_lead cs
  -- Both pass over the same front.
  have hplace := Position.within_after base Position.isPlace_start (blanks ++ mark)
  rw [Position.within_start] at hplace
  rw [run, run, lead_append base hblanks hstops hmark, lead_append .start hblanks hstops hmark,
    ← hplace]
  exact scan_within base [] _ rest (Position.isPlace_start.after _)

/-- Blanks in front are passed over. -/
theorem run_append {blanks : List Char} (hblanks : ∀ c ∈ blanks, Text.isBlank c = true)
    (cs : List Char) (place : Position) :
    (Scanner.mk (blanks ++ cs) place).run = (Scanner.mk cs (place.after blanks)).run := by
  obtain ⟨more, mark, rest, rfl, hmore, hstops, hmark⟩ := exists_lead cs
  have hboth : ∀ c ∈ blanks ++ more, Text.isBlank c = true :=
    List.forall_mem_append.mpr ⟨hblanks, hmore⟩
  rw [run, run, ← List.append_assoc, lead_append place hboth hstops hmark,
    lead_append _ hmore hstops hmark, List.append_assoc, Position.after_append]

end Scanner

/-- The blanks in front of a formula; none, if there is no formula behind them. -/
def Text.leading (s : String) : List Char :=
  (dropBlanksRight s.toList).takeWhile isBlank

theorem Text.leading_append_trim (s : String) :
    leading s ++ (trim s).toList = dropBlanksRight s.toList := by
  rw [toList_trim]
  exact List.takeWhile_append_dropWhile

theorem Text.isBlank_of_mem_leading {s : String} {c : Char} (h : c ∈ leading s) :
    isBlank c = true :=
  List.mem_takeWhile_imp h

/-- The place where a formula starts behind its blanks. -/
def Text.origin (s : String) : Position :=
  .behind (leading s)

namespace Scanner

theorem run_ofString (source : String) :
    (ofString source).run = (ofString (Text.trim source)).run.within (Text.origin source) := by
  have htrim := Text.dropBlanksRight_of_endsSolid (Text.endsSolid_trim source)
  rw [ofString, ofString, htrim, ← Text.leading_append_trim,
    run_append (fun c hc => Text.isBlank_of_mem_leading hc), Position.after_start]
  exact run_within (Text.origin source) _

theorem tokens_ne_nil {source : String} {ts : List Token.Placed} (h : tokens source = .ok ts) :
    ts ≠ [] := by
  obtain ⟨blanks, mark, xs, hcut⟩ := exists_cut h
  rw [Except.ok.inj (h.symm.trans hcut.tokens_eq)]
  exact List.append_ne_nil_of_right_ne_nil _ (List.cons_ne_nil _ _)

end Scanner

/-! ## Reading -/

def Mismatch.within (base : Position) (e : Mismatch) : Mismatch :=
  { e with place := base.within e.place }

def FormulaError.within (base : Position) : FormulaError → FormulaError
  | stray e => stray (e.within base)
  | mismatch e => mismatch (e.within base)

def Stop.within (base : Position) (s : Stop) : Stop :=
  { s with rest := s.rest.map (·.within base) }

/-- What is read does not depend on places. -/
theorem Progress.run_within (base : Position) (p : Progress) (ts : List Token.Placed) :
    p.run (ts.map (·.within base)) = (p.run ts).within base := by
  induction ts generalizing p with
  | nil => rfl
  | cons t ts ih =>
    have htoken : (t.within base).token = t.token := rfl
    simp only [List.map_cons, run, htoken]
    by_cases hending : t.token = .ending
    · rw [if_pos hending, if_pos hending]
      rfl
    · rw [if_neg hending, if_neg hending]
      cases (p.applySigns t.token).step t.token with
      | ok q => exact ih q
      | error cause => cases cause <;> rfl

theorem Reader.read_within (base : Position) {ts : List Token.Placed} (h : ts ≠ []) :
    (ofTokens (ts.map (·.within base))).read.1 =
      (ofTokens ts).read.1.mapError (·.within base) := by
  -- Without any token a mismatch is reported at the start, wherever that is.
  obtain ⟨last, hlast⟩ : ∃ last, ts.getLast? = some last := ⟨_, List.getLast?_eq_some_getLast h⟩
  simp only [read, ofTokens, Progress.run_within, List.getLast?_map, hlast]
  generalize Progress.run ⟨[], .operand, 0, 0⟩ ts = stop
  obtain ⟨result, progress, rest⟩ := stop
  cases result with
  | ok e => rfl
  | error cause => cases rest <;> rfl

/-! ## Messages -/

theorem Position.toString_inj {p q : Position} (h : toString p = toString q) : p = q := by
  have hcolon (n : Nat) : ':' ∉ (toString n).toList := by
    rw [Nat.toString_eq_ofList_toDigits, String.toList_ofList]
    intro hmem
    exact absurd (Nat.isDigit_of_mem_toDigits (by decide) (by decide) hmem) (by decide)
  have hchars (p : Position) :
      (toString p).toList = (toString p.line).toList ++ ':' :: (toString p.column).toList := by
    show (toString p.line ++ ":" ++ toString p.column).toList = _
    rw [String.toList_append, String.toList_append, List.append_assoc]
    rfl
  have hlist := congrArg String.toList h
  rw [hchars, hchars] at hlist
  -- The line ends at the first colon, and the column is what is left.
  obtain ⟨hline, hcolumn⟩ := Text.append_cons_inj (hcolon _) (hcolon _) hlist
  have hlines : p.line = q.line := Nat.repr_inj.mp (String.toList_inj.mp hline)
  have hcolumns : p.column = q.column := Nat.repr_inj.mp (String.toList_inj.mp hcolumn)
  cases p
  cases q
  simp_all

namespace FormulaError

variable (base : Position) (e : FormulaError) (locale : Locale)

theorem place_within : (e.within base).place = base.within e.place := by
  cases e <;> rfl

theorem reason_within : (e.within base).reason locale = e.reason locale := by
  cases e <;> cases locale <;> rfl

/-- A message tells the place that it is about. -/
theorem display_within_eq_iff :
    (e.within base).display locale = e.display locale ↔ base.within e.place = e.place := by
  rw [display, display, String.append_right_inj, message, message, reason_within, place_within,
    String.append_left_inj, String.append_left_inj]
  exact ⟨Position.toString_inj, congrArg toString⟩

end FormulaError

/-- A formula behind blanks is rejected for the same reason as the formula alone, and at the same
place of the whole text. -/
theorem Formula.parse_eq_within (source : String) :
    parse source = (parse (Text.trim source)).mapError (·.within (Text.origin source)) := by
  have hrun := congrArg Scanner.Scan.result (Scanner.run_ofString source)
  unfold parse
  rw [Scanner.tokens, hrun]
  show (Except.mapError _ ((Except.map _ (Scanner.tokens (Text.trim source))).mapError _) >>= _) = _
  cases hscan : Scanner.tokens (Text.trim source) with
  | error e => rfl
  | ok ts =>
    show (Reader.ofTokens (ts.map (·.within (Text.origin source)))).read.1.mapError
      FormulaError.mismatch = ((Reader.ofTokens ts).read.1.mapError FormulaError.mismatch).mapError _
    rw [Reader.read_within _ (Scanner.tokens_ne_nil hscan)]
    cases (Reader.ofTokens ts).read.1 <;> rfl

/-- Blanks around a formula do not change what is read. -/
theorem Formula.parse_trim_eq_ok_iff {source : String} {e : Expr} :
    parse (Text.trim source) = .ok e ↔ parse source = .ok e := by
  rw [parse_eq_within source]
  cases parse (Text.trim source) with
  | ok d => rfl
  | error d => simp [Except.mapError]

end FormulaTree
