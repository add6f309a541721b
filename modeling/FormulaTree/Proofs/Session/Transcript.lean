import FormulaTree.Proofs.Session.History
import FormulaTree.Proofs.Text.Bytes
import FormulaTree.Session.Loop

/-!
# What is written in a session

The lines of an input are answered one after the other, each by the session that the lines before it
have made. Lines that hold only blanks take no part in it, and the answers go on until one of them
ends the session, or the input ends, or a line that is not UTF-8 is met.
-/

namespace FormulaTree

/-! ## Lines -/

namespace Text

section

variable {α : Type} [DecidableEq α] {stop : α}

/-- The parts of a list that is cut after each `stop`. -/
def cutAfter (stop : α) (l : List α) : List (List α) :=
  l.splitBy fun a _ => a ≠ stop

theorem isChain_of_not_mem {l : List α} (h : stop ∉ l) :
    l.IsChain fun a _ => decide (a ≠ stop) = true := by
  induction l with
  | nil => exact List.isChain_nil
  | cons a l ih =>
    rw [List.mem_cons, not_or] at h
    rw [List.isChain_cons]
    exact ⟨fun _ _ => decide_eq_true (Ne.symm h.1), ih h.2⟩

theorem cutAfter_of_not_mem {l : List α} (hl : l ≠ []) (h : stop ∉ l) : cutAfter stop l = [l] :=
  List.splitBy_of_isChain hl (isChain_of_not_mem h)

/-- The first part ends with the first `stop`. -/
theorem cutAfter_append_cons {l : List α} (h : stop ∉ l) (m : List α) :
    cutAfter stop (l ++ stop :: m) = (l ++ [stop]) :: cutAfter stop m := by
  have hpart : cutAfter stop (l ++ [stop]) = [l ++ [stop]] := by
    apply List.splitBy_of_isChain (by simp)
    rw [List.isChain_append]
    refine ⟨isChain_of_not_mem h, List.isChain_singleton stop, ?_⟩
    intro a ha _ _
    rw [decide_eq_true_eq]
    rintro rfl
    exact h (List.mem_of_getLast? ha)
  cases m with
  | nil => exact hpart
  | cons a m =>
    have hcut : cutAfter stop ((l ++ [stop]) ++ a :: m) =
        cutAfter stop (l ++ [stop]) ++ cutAfter stop (a :: m) := by
      apply List.splitBy_append_cons
      intro x hx
      rw [List.getLast?_concat, Option.mem_some] at hx
      rw [← hx, decide_eq_false_iff_not, not_not]
    rw [← List.singleton_append, ← List.append_assoc, hcut, hpart, List.singleton_append]

end

/-- The lines of a text, each up to and with its line feed. -/
def lines (text : String) : List String :=
  (cutAfter '\n' text.toList).map String.ofList

/-- The last line may have no line feed. -/
example : lines "=A1\n \n:q" = ["=A1\n", " \n", ":q"] := by
  decide

/-- The byte of a line feed is part of no other character. -/
theorem lineFeed_not_mem {c : Char} (h : c ≠ '\n') : 10 ∉ String.utf8EncodeChar c := by
  have hcode : c.val.toNat ≠ 10 := by
    intro hcode
    exact h (Char.toNat_inj.mp hcode)
  have hbyte : ∀ n < 256, n ≠ 10 → (10 : UInt8) ≠ UInt8.ofNat n := by
    intro n hn hne heq
    have htoNat := congrArg UInt8.toNat heq
    rw [UInt8.toNat_ofNat', Nat.mod_eq_of_lt hn] at htoNat
    exact hne htoNat.symm
  unfold String.utf8EncodeChar
  generalize c.val.toNat = n at hcode
  dsimp only
  -- A character of several bytes has only bytes from 128 on.
  split_ifs <;> simp only [List.mem_cons, List.not_mem_nil, not_or, or_false]
  · exact hbyte _ (by omega) (by omega)
  · exact ⟨hbyte _ (by omega) (by omega), hbyte _ (by omega) (by omega)⟩
  · exact ⟨hbyte _ (by omega) (by omega), hbyte _ (by omega) (by omega),
      hbyte _ (by omega) (by omega)⟩
  · exact ⟨hbyte _ (by omega) (by omega), hbyte _ (by omega) (by omega),
      hbyte _ (by omega) (by omega), hbyte _ (by omega) (by omega)⟩

theorem toList_byteArray (b : ByteArray) : b.toList = b.data.toList := by
  have hloop (i : Nat) (read : List UInt8) :
      ByteArray.toList.loop b i read = read.reverse ++ b.data.toList.drop i := by
    fun_induction ByteArray.toList.loop b i read with
    | case1 i read hi ih =>
      have hlength : i < b.data.toList.length := hi
      have hget : b.get! i = b.data.toList[i] := getElem!_pos b.data i hi
      rw [ih, List.drop_eq_getElem_cons hlength, List.reverse_cons, List.append_assoc,
        List.singleton_append, hget]
    | case2 i read hi =>
      rw [List.drop_eq_nil_of_le (Nat.le_of_not_lt hi), List.append_nil]
  exact hloop 0 []

end Text

namespace Session

theorem splitLines_append {front : List UInt8} (h : 10 ∉ front) (line bs : List UInt8) :
    splitLines line (front ++ bs) = splitLines (front.reverse ++ line) bs := by
  induction front generalizing line with
  | nil => rfl
  | cons b front ih =>
    rw [List.mem_cons, not_or] at h
    rw [List.cons_append, splitLines, if_neg (Ne.symm h.1), ih h.2, List.reverse_cons,
      List.append_assoc, List.singleton_append]

/-- Bytes that write signs one by one are cut into lines where the signs are cut, if the byte of a
line feed writes one of the signs and is part of no other. -/
theorem splitLines_flatMap {α : Type} [DecidableEq α] {stop : α} (code : α → List UInt8)
    (hstop : code stop = [10]) (hcode : ∀ a, a ≠ stop → code a ≠ [] ∧ 10 ∉ code a)
    {front : List α} (hfront : stop ∉ front) (l : List α) :
    splitLines (front.flatMap code).reverse (l.flatMap code) =
      (Text.cutAfter stop (front ++ l)).map fun part => ⟨(part.flatMap code).toArray⟩ := by
  induction l generalizing front with
  | nil =>
    rw [List.append_nil, List.flatMap_nil, splitLines, List.reverse_reverse]
    cases front with
    | nil => rfl
    | cons a front =>
      have hne : code a ≠ [] := (hcode a (by rintro rfl; exact hfront List.mem_cons_self)).1
      rw [Text.cutAfter_of_not_mem (List.cons_ne_nil a front) hfront, if_neg]
      · rfl
      · simp [hne]
  | cons a l ih =>
    rw [List.flatMap_cons]
    by_cases ha : a = stop
    · rw [ha, hstop, List.singleton_append, splitLines, if_pos rfl, Text.cutAfter_append_cons hfront,
        List.map_cons, List.reverse_cons, List.reverse_reverse, List.flatMap_append,
        List.flatMap_singleton, hstop]
      exact congrArg _ (ih List.not_mem_nil)
    · have hfront' : stop ∉ front ++ [a] := by
        simp [hfront, Ne.symm ha]
      have hih := ih hfront'
      rw [List.flatMap_append, List.flatMap_singleton, List.reverse_append, List.append_assoc,
        List.singleton_append] at hih
      rw [splitLines_append (hcode a ha).2, hih]

theorem splitLines_eq_cutAfter (bs : List UInt8) :
    splitLines [] bs = (Text.cutAfter 10 bs).map fun line => ⟨line.toArray⟩ := by
  have hlines := splitLines_flatMap (fun b : UInt8 => [b]) rfl
    (fun b hb => ⟨List.cons_ne_nil b [], by simpa using Ne.symm hb⟩) List.not_mem_nil bs
  simpa only [List.reverse_nil, List.flatMap_nil, List.nil_append, List.flatMap_singleton']
    using hlines

/-- The lines that are read of a text are its lines. -/
theorem splitLines_toUTF8 (text : String) :
    splitLines [] text.toUTF8.toList = (Text.lines text).map String.toUTF8 := by
  have hlines := splitLines_flatMap String.utf8EncodeChar rfl
    (fun c hc => ⟨String.utf8EncodeChar_ne_nil, Text.lineFeed_not_mem hc⟩) List.not_mem_nil
    text.toList
  have hbytes : text.toUTF8.toList = text.toList.flatMap String.utf8EncodeChar := by
    rw [Text.toList_byteArray, ← Text.bytes_eq_flatMap]
    rfl
  rw [hbytes, Text.lines, List.map_map]
  refine hlines.trans (List.map_congr_left ?_)
  intro part _
  show _ = (String.ofList part).toUTF8
  apply ByteArray.ext
  apply Array.toList_inj.mp
  have hpart := Text.bytes_eq_flatMap (String.ofList part)
  rw [String.toList_ofList] at hpart
  exact hpart.symm

/-! ## Answers -/

/-- The lines that are not passed over. -/
def spoken (lines : List String) : List String :=
  lines.filter fun line => !Text.isAllBlank line

/-- The answer to a line, unless it is passed over. -/
def answer? (s : Session) (line : String) : Option Reply :=
  if Text.isAllBlank line then none else some (s.handle line).1

/-- The session after a line. -/
def next (s : Session) (line : String) : Session :=
  if Text.isAllBlank line then s else (s.handle line).2

/-- The answers to some lines, one for each, if none of them ends the session. -/
def answers (s : Session) (lines : List String) : List (Option Reply) :=
  lines.mapIdx fun i line => (s.after (spoken (lines.take i))).answer? line

/-- The answers up to and with the first one that ends the session. -/
def throughQuit (answers : List (Option Reply)) : List (Option Reply) :=
  answers.take (answers.findIdx (· = some .quit) + 1)

/-- What is written for a line: the prompt, and what is answered. -/
def written : Option Reply → Streams
  | some (.print text) => ⟨prompt ++ text ++ "\n", ""⟩
  | some (.error text) => ⟨prompt, text ++ "\n"⟩
  | some .quit | none => ⟨prompt, ""⟩

/-- What is written for some lines. -/
def writtenAll (answers : List (Option Reply)) : Streams :=
  ⟨String.join (answers.map fun answer => (written answer).out),
    String.join (answers.map fun answer => (written answer).err)⟩

theorem after_spoken_cons (s : Session) (line : String) (lines : List String) :
    s.after (spoken (line :: lines)) = (s.next line).after (spoken lines) := by
  unfold spoken next after
  by_cases hblank : Text.isAllBlank line = true
  · rw [List.filter_cons_of_neg (by simp [hblank]), if_pos hblank]
  · rw [List.filter_cons_of_pos (by simp [hblank]), if_neg hblank, List.foldl_cons]

theorem answers_cons (s : Session) (line : String) (lines : List String) :
    s.answers (line :: lines) = s.answer? line :: (s.next line).answers lines := by
  unfold answers
  rw [List.mapIdx_cons]
  simp only [List.take_succ_cons, after_spoken_cons]
  rfl

theorem throughQuit_cons (answer : Option Reply) (answers : List (Option Reply)) :
    throughQuit (answer :: answers) =
      answer :: if answer = some .quit then [] else throughQuit answers := by
  unfold throughQuit
  rw [List.findIdx_cons, List.take_succ_cons]
  by_cases h : answer = some .quit
  · simp [h]
  · simp [h]

theorem throughQuit_of_not_mem {answers : List (Option Reply)} (h : some .quit ∉ answers) :
    throughQuit answers = answers := by
  induction answers with
  | nil => rfl
  | cons answer answers ih =>
    rw [List.mem_cons, not_or] at h
    rw [throughQuit_cons, if_neg (Ne.symm h.1), ih h.2]

theorem writtenAll_cons (answer : Option Reply) (answers : List (Option Reply)) :
    writtenAll (answer :: answers) = written answer ++ writtenAll answers := by
  unfold writtenAll
  rw [List.map_cons, List.map_cons, String.join_cons, String.join_cons]
  rfl

/-! ## The run -/

/-- A line is read and answered, and the session goes on unless that ends it. -/
theorem transcript_cons (s : Session) (line : String) (rest : List ByteArray) :
    s.transcript (line.toUTF8 :: rest) =
      written (s.answer? line) ++
        if s.answer? line = some .quit then .empty else (s.next line).transcript rest := by
  rw [transcript, respond, decodeText_toUTF8]
  unfold answer? next
  dsimp only
  by_cases hblank : Text.isAllBlank line = true
  · simp only [if_pos hblank]
    rfl
  · simp only [if_neg hblank]
    obtain ⟨reply, next⟩ := s.handle line
    cases reply with
    | print text =>
      show (⟨prompt ++ (text ++ "\n"), ""⟩ : Streams) ++ _ = ⟨prompt ++ text ++ "\n", ""⟩ ++ _
      rw [String.append_assoc]
      rfl
    | error text =>
      show (⟨prompt, "" ++ (text ++ "\n")⟩ : Streams) ++ _ = ⟨prompt, text ++ "\n"⟩ ++ _
      rw [String.empty_append]
      rfl
    | quit => rfl

theorem transcript_invalid (s : Session) {line : ByteArray} (h : ¬line.IsValidUTF8)
    (rest : List ByteArray) :
    s.transcript (line :: rest) =
      ⟨prompt, reportLine "read error: stream did not contain valid UTF-8"⟩ := by
  have hdecode : decodeText line = .error .invalidText := by
    rw [decodeText, String.fromUTF8?, dif_neg h]
  rw [transcript, respond, hdecode]
  rfl

/-- The run over some lines, and what is read behind them. -/
theorem transcript_append (s : Session) (before : List String) (rest : List ByteArray) :
    s.transcript (before.map String.toUTF8 ++ rest) =
      writtenAll (throughQuit (s.answers before)) ++
        if some .quit ∈ s.answers before then .empty
        else (s.after (spoken before)).transcript rest := by
  induction before generalizing s with
  | nil => exact (Streams.empty_append _).symm
  | cons line before ih =>
    rw [List.map_cons, List.cons_append, transcript_cons, answers_cons, throughQuit_cons,
      writtenAll_cons, after_spoken_cons, Streams.append_assoc]
    by_cases hquit : s.answer? line = some .quit
    · rw [hquit, if_pos rfl, if_pos rfl, if_pos List.mem_cons_self, Streams.append_empty]
      rfl
    · have hmem : some .quit ∈ s.answer? line :: (s.next line).answers before ↔
          some .quit ∈ (s.next line).answers before := by
        rw [List.mem_cons, or_iff_right (Ne.symm hquit)]
      rw [if_neg hquit, if_neg hquit, ih]
      simp only [hmem]

theorem transcript_text (s : Session) {text : String} {before after : List String}
    (h : Text.lines text = before ++ after) :
    s.transcript (splitLines [] text.toUTF8.toList) =
      writtenAll (throughQuit (s.answers before)) ++
        if some .quit ∈ s.answers before then .empty
        else (s.after (spoken before)).transcript (after.map String.toUTF8) := by
  rw [splitLines_toUTF8, h, List.map_append, transcript_append]

/-- What is written over an input. It is told by the answers to its lines, up to the one that ends
the session or else with one more prompt at the end. A blank line before that adds a prompt and
nothing else, and what is behind it adds nothing. A line that is not UTF-8 ends the input with a
report. -/
theorem transcript_of_answers (s : Session) :
    (∀ text : String,
      s.transcript (splitLines [] text.toUTF8.toList) =
        writtenAll (throughQuit (s.answers (Text.lines text))) ++
          if some .quit ∈ s.answers (Text.lines text) then .empty else ⟨prompt, ""⟩) ∧
    (∀ (text text' : String) (before : List String) (blank : String) (after : List String),
      Text.lines text = before ++ after → Text.lines text' = before ++ blank :: after →
      Text.isAllBlank blank = true → some .quit ∉ s.answers before →
      ∃ back,
        s.transcript (splitLines [] text.toUTF8.toList) = writtenAll (s.answers before) ++ back ∧
        s.transcript (splitLines [] text'.toUTF8.toList) =
          writtenAll (s.answers before) ++ ⟨prompt, ""⟩ ++ back) ∧
    (∀ (text text' : String) (before after after' : List String),
      Text.lines text = before ++ after → Text.lines text' = before ++ after' →
      some .quit ∈ s.answers before →
      s.transcript (splitLines [] text.toUTF8.toList) =
        s.transcript (splitLines [] text'.toUTF8.toList)) ∧
    (∀ (input : ByteArray) (before : List String) (bad : List UInt8) (after : List (List UInt8)),
      Text.cutAfter 10 input.toList = before.map Text.bytes ++ bad :: after →
      ¬(ByteArray.mk bad.toArray).IsValidUTF8 →
      s.transcript (splitLines [] input.toList) =
        writtenAll (throughQuit (s.answers before)) ++
          if some .quit ∈ s.answers before then .empty
          else ⟨prompt, reportLine "read error: stream did not contain valid UTF-8"⟩) := by
  refine ⟨?_, ?_, ?_, ?_⟩
  · intro text
    rw [s.transcript_text (List.append_nil (Text.lines text)).symm, List.map_nil, transcript]
  · intro text text' before blank after h h' hblank hquit
    refine ⟨(s.after (spoken before)).transcript (after.map String.toUTF8), ?_, ?_⟩
    · rw [s.transcript_text h, if_neg hquit, throughQuit_of_not_mem hquit]
    · have hanswer : (s.after (spoken before)).answer? blank = none := if_pos hblank
      have hnext : (s.after (spoken before)).next blank = s.after (spoken before) := if_pos hblank
      rw [s.transcript_text h', if_neg hquit, throughQuit_of_not_mem hquit, List.map_cons,
        transcript_cons, hanswer, hnext, if_neg (by simp), Streams.append_assoc]
      rfl
  · intro text text' before after after' h h' hquit
    rw [s.transcript_text h, s.transcript_text h', if_pos hquit, if_pos hquit]
  · intro input before bad after h hbad
    have hlines : (before.map Text.bytes).map (fun line => ByteArray.mk line.toArray) =
        before.map String.toUTF8 := by
      rw [List.map_map]
      rfl
    rw [splitLines_eq_cutAfter, h, List.map_append, hlines, List.map_cons, transcript_append,
      transcript_invalid _ hbad]

end Session

end FormulaTree
