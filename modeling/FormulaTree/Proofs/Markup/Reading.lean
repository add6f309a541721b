import FormulaTree.Markup
import Mathlib

/-!
# Reading HTML back

HTML is read one character at a time, first into tags with text between them and then into a tree.
What is written from a tree is read back as that tree, whatever its texts are: escaping leaves no
`<` in a text, and the five character references are undone where text is read.
-/

namespace FormulaTree

namespace Markup

/-- What HTML is a row of. -/
inductive Part where
  | opening (tag : String) (attributes : List Attribute)
  | closing (tag : String)
  | text (contents : String)
deriving DecidableEq, Repr

/-- Text with the character references in it replaced. -/
def unescape : List Char → List Char
  | '&' :: 'a' :: 'm' :: 'p' :: ';' :: cs => '&' :: unescape cs
  | '&' :: 'l' :: 't' :: ';' :: cs => '<' :: unescape cs
  | '&' :: 'g' :: 't' :: ';' :: cs => '>' :: unescape cs
  | '&' :: 'q' :: 'u' :: 'o' :: 't' :: ';' :: cs => '"' :: unescape cs
  | '&' :: '#' :: '3' :: '9' :: ';' :: cs => '\'' :: unescape cs
  | c :: cs => c :: unescape cs
  | [] => []

/-- A text between two tags, if there is one. -/
def textParts (s : String) : List Part :=
  if s = "" then [] else [.text s]

/-- An attribute that is only named, if there is a name. -/
def named (name : List Char) : List Attribute :=
  if name = [] then [] else [⟨String.ofList name, none⟩]

/-- The elements whose text is not escaped. -/
def isRaw (tag : String) : Bool :=
  tag = "style" || tag = "script"

/-- Where reading stands, with what was read of it so far. -/
inductive Place where
  | text (read : List Char)
  /-- In the text of an element that is not escaped. It ends with the closing tag. -/
  | raw (tag : String) (read : List Char)
  /-- Behind a `<`. -/
  | tag
  | closing (name : List Char)
  | opening (name : List Char)
  /-- In a tag, behind its name and some attributes. -/
  | attribute (tag : List Char) (attributes : List Attribute) (name : List Char)
  /-- Behind the `=` of an attribute. -/
  | equals (tag : List Char) (attributes : List Attribute) (name : List Char)
  | value (tag : List Char) (attributes : List Attribute) (name value : List Char)

/-- The text that ends here. -/
def Place.pending : Place → List Part
  | text read => textParts (String.ofList (unescape read))
  | raw _ read => textParts (String.ofList read)
  | _ => []

def opened (tag : List Char) (attributes : List Attribute) : List Part × Place :=
  ([.opening (String.ofList tag) attributes],
    if isRaw (String.ofList tag) then .raw (String.ofList tag) [] else .text [])

def step : Place → Char → List Part × Place
  | .text read, c =>
    if c = '<' then ((Place.text read).pending, .tag) else ([], .text (read ++ [c]))
  | .raw tag read, c =>
    if c = '>' ∧ ('<' :: '/' :: tag.toList) <:+ read then
      ((Place.raw tag (read.take (read.length - tag.length - 2))).pending ++ [.closing tag], .text [])
    else
      ([], .raw tag (read ++ [c]))
  | .tag, c => ([], if c = '/' then .closing [] else .opening [c])
  | .closing name, c =>
    if c = '>' then ([.closing (String.ofList name)], .text []) else ([], .closing (name ++ [c]))
  | .opening name, c =>
    if c = '>' then opened name []
    else if c = ' ' then ([], .attribute name [] [])
    else ([], .opening (name ++ [c]))
  | .attribute tag attributes name, c =>
    if c = '>' then opened tag (attributes ++ named name)
    else if c = ' ' then ([], .attribute tag (attributes ++ named name) [])
    else if c = '=' then ([], .equals tag attributes name)
    else ([], .attribute tag attributes (name ++ [c]))
  | .equals tag attributes name, c =>
    ([], if c = '"' then .value tag attributes name [] else .equals tag attributes name)
  | .value tag attributes name value, c =>
    if c = '"' then
      ([], .attribute tag
        (attributes ++ [⟨String.ofList name, some (String.ofList (unescape value))⟩]) [])
    else
      ([], .value tag attributes name (value ++ [c]))

def run : Place → List Char → List Part × Place
  | p, [] => ([], p)
  | p, c :: cs =>
    let next := run (step p c).2 cs
    ((step p c).1 ++ next.1, next.2)

/-- The tags and texts of HTML, in order. -/
def partsOf (html : String) : List Part :=
  let (parts, place) := run (.text []) html.toList
  parts ++ place.pending

/-- Puts parts into a tree: behind `before`, in the elements `outer` that are still open, each with
what stands before it. -/
def grow (outer : List (String × List Attribute × List Markup)) (before : List Markup) :
    List Part → Option (List Markup)
  | [] => if outer = [] then some before else none
  | .text s :: ps => grow outer (before ++ [.text s]) ps
  | .opening tag attributes :: ps => grow ((tag, attributes, before) :: outer) [] ps
  | .closing tag :: ps =>
    match outer with
    | (t, attributes, first) :: outer =>
      if t = tag then grow outer (first ++ [.element t attributes before]) ps else none
    | [] => none

/-- The nodes that HTML stands for, if its tags are properly nested. -/
def read? (html : String) : Option (List Markup) :=
  grow [] [] (partsOf html)

/-! ## Escaping -/

theorem unescape_cons {c : Char} (h : c ≠ '&') (cs : List Char) :
    unescape (c :: cs) = c :: unescape cs := by
  conv_lhs => unfold unescape
  split <;> simp_all

theorem escapeChar_of_ne {c : Char} (hamp : c ≠ '&') (hlt : c ≠ '<') (hgt : c ≠ '>')
    (hquote : c ≠ '"') (hapos : c ≠ '\'') : escapeChar c = [c] := by
  unfold escapeChar
  split <;> simp_all

theorem unescape_flatMap_escapeChar (cs : List Char) :
    unescape (cs.flatMap escapeChar) = cs := by
  induction cs with
  | nil => rfl
  | cons c cs ih =>
    rw [List.flatMap_cons]
    by_cases hamp : c = '&'
    · subst hamp; exact congrArg (List.cons '&') ih
    by_cases hlt : c = '<'
    · subst hlt; exact congrArg (List.cons '<') ih
    by_cases hgt : c = '>'
    · subst hgt; exact congrArg (List.cons '>') ih
    by_cases hquote : c = '"'
    · subst hquote; exact congrArg (List.cons '"') ih
    by_cases hapos : c = '\''
    · subst hapos; exact congrArg (List.cons '\'') ih
    rw [escapeChar_of_ne hamp hlt hgt hquote hapos, List.singleton_append, unescape_cons hamp, ih]

/-- Escaping is undone where text is read. -/
theorem unescape_escape (s : String) : unescape (escape s).toList = s.toList := by
  rw [escape, String.toList_ofList, unescape_flatMap_escapeChar]

theorem ne_of_mem_escapeChar (d : Char) : ∀ c ∈ escapeChar d, c ≠ '<' ∧ c ≠ '"' := by
  unfold escapeChar
  split
  case h_6 hlt _ hquote _ =>
    intro c hc
    rw [List.mem_singleton.mp hc]
    exact ⟨hlt, hquote⟩
  all_goals simp

/-- An escaped text ends neither a text nor the value of an attribute. -/
theorem ne_of_mem_escape {s : String} {c : Char} (h : c ∈ (escape s).toList) :
    c ≠ '<' ∧ c ≠ '"' := by
  rw [escape, String.toList_ofList, List.mem_flatMap] at h
  obtain ⟨d, -, hc⟩ := h
  exact ne_of_mem_escapeChar d c hc

theorem textParts_escape (s : String) :
    textParts (String.ofList (unescape (escape s).toList)) = textParts s := by
  rw [unescape_escape, String.ofList_toList]

/-! ## Reading character by character -/

theorem run_append {p q r : Place} {cs ds : List Char} {out more : List Part}
    (h : run p cs = (out, q)) (hmore : run q ds = (more, r)) :
    run p (cs ++ ds) = (out ++ more, r) := by
  induction cs generalizing p out with
  | nil =>
    cases h
    exact hmore
  | cons c cs ih =>
    obtain ⟨rfl, hq⟩ := Prod.mk.inj h
    have hcs : run (step p c).2 cs = ((run (step p c).2 cs).1, q) := by
      rw [← hq]
    rw [List.cons_append, run, ih hcs, List.append_assoc]

theorem run_cons {p q r : Place} {c : Char} {cs : List Char} {more : List Part}
    (h : step p c = ([], q)) (hmore : run q cs = (more, r)) : run p (c :: cs) = (more, r) := by
  rw [run, h]
  dsimp only
  rw [hmore]
  rfl

theorem run_singleton (p : Place) (c : Char) : run p [c] = step p c := by
  rw [run, run, List.append_nil]

theorem run_text {cs : List Char} (h : ∀ c ∈ cs, c ≠ '<') (read : List Char) :
    run (.text read) cs = ([], .text (read ++ cs)) := by
  induction cs generalizing read with
  | nil => rw [List.append_nil]; rfl
  | cons c cs ih =>
    rw [List.forall_mem_cons] at h
    have hstep : step (.text read) c = ([], .text (read ++ [c])) := if_neg h.1
    have hrest := ih h.2 (read ++ [c])
    rw [List.append_assoc] at hrest
    exact run_cons hstep hrest

theorem run_value {cs : List Char} (h : ∀ c ∈ cs, c ≠ '"') (tag : List Char)
    (attributes : List Attribute) (name value : List Char) :
    run (.value tag attributes name value) cs =
      ([], .value tag attributes name (value ++ cs)) := by
  induction cs generalizing value with
  | nil => rw [List.append_nil]; rfl
  | cons c cs ih =>
    rw [List.forall_mem_cons] at h
    have hstep : step (.value tag attributes name value) c =
        ([], .value tag attributes name (value ++ [c])) := if_neg h.1
    have hrest := ih h.2 (value ++ [c])
    rw [List.append_assoc] at hrest
    exact run_cons hstep hrest

/-- A text without a `<` in it stays in an element that is not escaped. -/
theorem run_raw {cs : List Char} (h : '<' ∉ cs) (tag : String) {read : List Char}
    (hread : '<' ∉ read) : run (.raw tag read) cs = ([], .raw tag (read ++ cs)) := by
  induction cs generalizing read with
  | nil => rw [List.append_nil]; rfl
  | cons c cs ih =>
    rw [List.mem_cons, not_or] at h
    have hsuffix : ¬('<' :: '/' :: tag.toList) <:+ read :=
      fun hs => hread (hs.subset List.mem_cons_self)
    have hstep : step (.raw tag read) c = ([], .raw tag (read ++ [c])) :=
      if_neg fun hc => hsuffix hc.2
    have hread' : '<' ∉ read ++ [c] := by
      rw [List.mem_append, List.mem_singleton, not_or]
      exact ⟨hread, h.1⟩
    have hrest := ih h.2 hread'
    rw [List.append_assoc] at hrest
    exact run_cons hstep hrest

/-! ## Names -/

def isNameChar (c : Char) : Bool :=
  c.isAlphanum || c = '-'

/-- The names that elements and attributes have here. -/
def isName (s : String) : Bool :=
  s ≠ "" && s.toList.all isNameChar

theorem ne_of_isNameChar {c : Char} (h : isNameChar c = true) :
    c ≠ '>' ∧ c ≠ ' ' ∧ c ≠ '=' ∧ c ≠ '/' := by
  refine ⟨?_, ?_, ?_, ?_⟩ <;> · rintro rfl; exact absurd h (by decide)

theorem forall_of_isName {s : String} (h : isName s = true) :
    s.toList ≠ [] ∧ ∀ c ∈ s.toList, isNameChar c = true := by
  simp only [isName, Bool.and_eq_true, decide_eq_true_eq, List.all_eq_true] at h
  refine ⟨fun hnil => h.1 ?_, h.2⟩
  rw [← String.ofList_toList (s := s), hnil]

/-- A character of a name belongs to the name, wherever a name stands. -/
theorem run_name (place : List Char → Place) {cs : List Char}
    (h : ∀ c ∈ cs, isNameChar c = true) (name : List Char)
    (hstep : ∀ name c, isNameChar c = true → step (place name) c = ([], place (name ++ [c]))) :
    run (place name) cs = ([], place (name ++ cs)) := by
  induction cs generalizing name with
  | nil => rw [List.append_nil]; rfl
  | cons c cs ih =>
    rw [List.forall_mem_cons] at h
    have hrest := ih h.2 (name ++ [c])
    rw [List.append_assoc] at hrest
    exact run_cons (hstep name c h.1) hrest

theorem step_opening {c : Char} (h : isNameChar c = true) (name : List Char) :
    step (.opening name) c = ([], .opening (name ++ [c])) := by
  have ⟨hgt, hspace, _⟩ := ne_of_isNameChar h
  rw [step, if_neg hgt, if_neg hspace]

theorem step_closing {c : Char} (h : isNameChar c = true) (name : List Char) :
    step (.closing name) c = ([], .closing (name ++ [c])) := by
  have ⟨hgt, _⟩ := ne_of_isNameChar h
  rw [step, if_neg hgt]

theorem step_attribute {c : Char} (h : isNameChar c = true) (tag : List Char)
    (attributes : List Attribute) (name : List Char) :
    step (.attribute tag attributes name) c = ([], .attribute tag attributes (name ++ [c])) := by
  have ⟨hgt, hspace, hequals, _⟩ := ne_of_isNameChar h
  rw [step, if_neg hgt, if_neg hspace, if_neg hequals]

/-! ## Tags -/

theorem named_of_isName {name : String} (h : isName name = true) :
    named name.toList = [⟨name, none⟩] := by
  rw [named, if_neg (forall_of_isName h).1, String.ofList_toList]

theorem toList_write_of_none (key : String) :
    (Attribute.write ⟨key, none⟩).toList = ' ' :: key.toList := by
  simp [Attribute.write]

theorem toList_write_of_some (key value : String) :
    (Attribute.write ⟨key, some value⟩).toList =
      ' ' :: (key.toList ++ '=' :: '"' :: ((escape value).toList ++ ['"'])) := by
  simp [Attribute.write]

theorem exists_toList_write (a : Attribute) : ∃ cs, a.write.toList = ' ' :: cs := by
  obtain ⟨key, value?⟩ := a
  cases value? with
  | none => exact ⟨_, toList_write_of_none key⟩
  | some value => exact ⟨_, toList_write_of_some key value⟩

/-- An attribute is read behind those that were there. -/
theorem run_attribute {a : Attribute} (h : isName a.name = true) (tag : List Char)
    (attributes : List Attribute) (name : List Char) :
    ∃ attributes' name', run (.attribute tag attributes name) a.write.toList =
        ([], .attribute tag attributes' name') ∧
      attributes' ++ named name' = attributes ++ named name ++ [a] := by
  obtain ⟨key, value?⟩ := a
  have hkey : run (.attribute tag (attributes ++ named name) []) key.toList =
      ([], .attribute tag (attributes ++ named name) key.toList) :=
    run_name _ (forall_of_isName h).2 [] fun _ _ hc => step_attribute hc _ _ _
  cases value? with
  | none =>
    have hnamed : attributes ++ named name ++ named key.toList =
        attributes ++ named name ++ [⟨key, none⟩] := by
      rw [named_of_isName h]
    refine ⟨attributes ++ named name, key.toList, ?_, hnamed⟩
    rw [toList_write_of_none]
    exact run_cons rfl hkey
  | some value =>
    have hescaped : ∀ c ∈ (escape value).toList, c ≠ '"' := fun c hc => (ne_of_mem_escape hc).2
    have hvalue := run_value hescaped tag (attributes ++ named name) key.toList []
    rw [List.nil_append] at hvalue
    have hquote : step (.value tag (attributes ++ named name) key.toList (escape value).toList) '"' =
        ([], .attribute tag (attributes ++ named name ++ [⟨key, some value⟩]) []) := by
      rw [step, if_pos rfl, unescape_escape, String.ofList_toList, String.ofList_toList]
    have hclose := run_append hvalue ((run_singleton _ _).trans hquote)
    have hnamed : attributes ++ named name ++ [⟨key, some value⟩] ++ named [] =
        attributes ++ named name ++ [⟨key, some value⟩] :=
      List.append_nil _
    refine ⟨attributes ++ named name ++ [⟨key, some value⟩], [], ?_, hnamed⟩
    rw [toList_write_of_some]
    exact run_cons rfl (run_append hkey (run_cons rfl (run_cons rfl hclose)))

theorem run_attributes (tag : List Char) : {as : List Attribute} →
    (∀ a ∈ as, isName a.name = true) → (attributes : List Attribute) → (name : List Char) →
    run (.attribute tag attributes name) ((as.flatMap fun a => a.write.toList) ++ ['>']) =
      opened tag (attributes ++ named name ++ as)
  | [], _, attributes, name => by
    rw [List.flatMap_nil, List.nil_append, run_singleton, List.append_nil]
    rfl
  | a :: as, h, attributes, name => by
    rw [List.forall_mem_cons] at h
    obtain ⟨attributes', name', hrun, hread⟩ := run_attribute h.1 tag attributes name
    have hrest := run_attributes tag h.2 attributes' name'
    rw [hread, List.append_assoc] at hrest
    rw [List.flatMap_cons, List.append_assoc]
    exact run_append hrun hrest

/-- Behind the name of an element stand its attributes, with a space in front of each. -/
theorem run_opening (tag : List Char) {as : List Attribute} (h : ∀ a ∈ as, isName a.name = true) :
    run (.opening tag) ((as.flatMap fun a => a.write.toList) ++ ['>']) = opened tag as := by
  cases as with
  | nil => exact run_singleton _ _
  | cons a as =>
    have hrun := run_attributes tag h [] []
    obtain ⟨cs, hcs⟩ := exists_toList_write a
    rw [List.flatMap_cons, hcs] at hrun ⊢
    exact hrun

/-- A `<` ends the text before it. -/
theorem run_tag {read cs : List Char} {out : List Part} {p : Place} (h : run .tag cs = (out, p)) :
    run (.text read) ('<' :: cs) = ((Place.text read).pending ++ out, p) := by
  have hstep : step (.text read) '<' = ((Place.text read).pending, .tag) := rfl
  rw [run, hstep]
  dsimp only
  rw [h]

/-- An opening tag is read as it was written. -/
theorem run_openTag {tag : String} {as : List Attribute} (htag : isName tag = true)
    (has : ∀ a ∈ as, isName a.name = true) (read : List Char) :
    run (.text read) (openTag tag as).toList =
      ((Place.text read).pending ++ [.opening tag as],
        if isRaw tag then .raw tag [] else .text []) := by
  obtain ⟨hne, hname⟩ := forall_of_isName htag
  obtain ⟨c, cs, hcs⟩ := List.exists_cons_of_ne_nil hne
  rw [hcs, List.forall_mem_cons] at hname
  have hwrite : (openTag tag as).toList =
      '<' :: c :: (cs ++ ((as.flatMap fun a => a.write.toList) ++ ['>'])) := by
    rw [openTag]
    simp [hcs, List.flatMap_map]
  -- The first character tells an opening tag from a closing one.
  have hfirst : step .tag c = ([], .opening [c]) := by
    have ⟨_, _, _, hslash⟩ := ne_of_isNameChar hname.1
    rw [step, if_neg hslash]
  have hrest : run (.opening [c]) cs = ([], .opening tag.toList) := by
    rw [hcs]
    exact run_name _ hname.2 [c] fun _ _ hd => step_opening hd _
  have hopened := run_opening tag.toList has
  rw [opened, String.ofList_toList] at hopened
  rw [hwrite]
  exact run_tag (run_cons hfirst (run_append hrest hopened))

theorem toList_closeTag (tag : String) :
    (closeTag tag).toList = '<' :: '/' :: (tag.toList ++ ['>']) := by
  simp [closeTag]

theorem run_closeTag {tag : String} (htag : isName tag = true) (read : List Char) :
    run (.text read) (closeTag tag).toList =
      ((Place.text read).pending ++ [.closing tag], .text []) := by
  have hname : run (.closing []) tag.toList = ([], .closing tag.toList) :=
    run_name _ (forall_of_isName htag).2 [] fun _ _ hd => step_closing hd _
  have hend : step (.closing tag.toList) '>' = ([.closing tag], .text []) := by
    rw [step, if_pos rfl, String.ofList_toList]
  rw [toList_closeTag]
  exact run_tag (run_cons rfl (run_append hname ((run_singleton _ _).trans hend)))

theorem run_raw_of_ne {cs : List Char} (h : ∀ c ∈ cs, c ≠ '>') (tag : String) (read : List Char) :
    run (.raw tag read) cs = ([], .raw tag (read ++ cs)) := by
  induction cs generalizing read with
  | nil => rw [List.append_nil]; rfl
  | cons c cs ih =>
    rw [List.forall_mem_cons] at h
    have hstep : step (.raw tag read) c = ([], .raw tag (read ++ [c])) :=
      if_neg fun hc => h.1 hc.1
    have hrest := ih h.2 (read ++ [c])
    rw [List.append_assoc] at hrest
    exact run_cons hstep hrest

/-- The text of an element that is not escaped ends with the closing tag. -/
theorem run_raw_closeTag {tag s : String} (htag : isName tag = true) (hs : '<' ∉ s.toList) :
    run (.raw tag []) (s.toList ++ (closeTag tag).toList) =
      (textParts s ++ [.closing tag], .text []) := by
  have hmark : ∀ c ∈ '<' :: '/' :: tag.toList, c ≠ '>' := by
    rw [List.forall_mem_cons, List.forall_mem_cons]
    exact ⟨by decide, by decide, fun c hc => (ne_of_isNameChar ((forall_of_isName htag).2 c hc)).1⟩
  have htext : run (.raw tag []) s.toList = ([], .raw tag s.toList) :=
    run_raw hs tag List.not_mem_nil
  have hend : step (.raw tag (s.toList ++ '<' :: '/' :: tag.toList)) '>' =
      (textParts s ++ [.closing tag], .text []) := by
    have htake : (s.toList ++ '<' :: '/' :: tag.toList).take
        ((s.toList ++ '<' :: '/' :: tag.toList).length - tag.length - 2) = s.toList := by
      have hlength : (s.toList ++ '<' :: '/' :: tag.toList).length - tag.length - 2 =
          s.toList.length := by
        simp only [List.length_append, List.length_cons, String.length_toList]
        omega
      rw [hlength, List.take_left]
    rw [step, if_pos ⟨rfl, List.suffix_append _ _⟩, htake, Place.pending, String.ofList_toList]
  have hclose := run_append (run_raw_of_ne hmark tag s.toList) ((run_singleton _ _).trans hend)
  have hlist : (closeTag tag).toList = ('<' :: '/' :: tag.toList) ++ ['>'] := toList_closeTag tag
  have hrun := run_append htext hclose
  rw [hlist]
  exact hrun

/-! ## What is written is read back -/

def isText : Markup → Bool
  | text _ | verbatim _ => true
  | element _ _ _ => false

mutual

/-- The parts that a node is written as. An empty text is none. -/
def parts : Markup → List Part
  | text s | verbatim s => textParts s
  | element tag attributes children =>
    .opening tag attributes :: (partsAll children ++ [.closing tag])

def partsAll : List Markup → List Part
  | [] => []
  | m :: ms => m.parts ++ partsAll ms

end

mutual

/-- What a node is read back as. -/
def nodes : Markup → List Markup
  | text s | verbatim s => if s = "" then [] else [text s]
  | element tag attributes children => [element tag attributes (nodesAll children)]

def nodesAll : List Markup → List Markup
  | [] => []
  | m :: ms => m.nodes ++ nodesAll ms

end

mutual

/-- Whether a node can be read back: names are ones that can stand in a tag, no two texts stand side
by side, and a text is left as it is only where nothing else would be read. -/
def Readable : Markup → Prop
  | text _ => True
  | verbatim _ => False
  | element tag attributes children =>
    isName tag = true ∧ (∀ a ∈ attributes, isName a.name = true) ∧
      if isRaw tag then ∃ s, children = [verbatim s] ∧ '<' ∉ s.toList else ReadableAll children

def ReadableAll : List Markup → Prop
  | [] => True
  | m :: ms => m.Readable ∧ (m.isText = true → ∀ n ∈ ms.head?, n.isText = false) ∧ ReadableAll ms

end

theorem toList_write_element (tag : String) (attributes : List Attribute) (children : List Markup) :
    (element tag attributes children).write.toList =
      (openTag tag attributes).toList ++
        ((children.flatMap fun m => m.write.toList) ++ (closeTag tag).toList) := by
  rw [write_element]
  simp [List.flatMap_map]

mutual

/-- An element is read as its parts, and a text before it ends with it. -/
theorem run_write (read : List Char) : (m : Markup) → m.isText = false → m.Readable →
    run (.text read) m.write.toList = ((Place.text read).pending ++ m.parts, .text [])
  | .text _, htext, _ | .verbatim _, htext, _ => absurd htext (by simp [isText])
  | .element tag attributes children, _, h => by
    obtain ⟨htag, hattributes, hchildren⟩ := h
    have hopen := run_openTag htag hattributes read
    rw [toList_write_element, parts]
    by_cases hraw : isRaw tag = true
    · rw [if_pos hraw] at hchildren hopen
      obtain ⟨s, rfl, hs⟩ := hchildren
      have hwrite : ([verbatim s].flatMap fun m => m.write.toList) = s.toList := by
        simp [write, writeAfter]
      have hrun := run_append hopen (run_raw_closeTag htag hs)
      rw [hwrite, hrun]
      simp [partsAll, parts]
    · rw [if_neg hraw] at hchildren hopen
      obtain ⟨out, read', hrun, hout⟩ := run_writeAll [] children (by simp) hchildren
      have hnone : (Place.text []).pending = [] := rfl
      rw [hnone, List.nil_append] at hout
      have hclose := run_closeTag htag read'
      rw [run_append hopen (run_append hrun hclose), ← hout]
      simp [List.append_assoc]

theorem run_writeAll (read : List Char) : (ms : List Markup) →
    (read ≠ [] → ∀ m ∈ ms.head?, m.isText = false) → ReadableAll ms →
    ∃ out read', run (.text read) (ms.flatMap fun m => m.write.toList) = (out, .text read') ∧
      out ++ (Place.text read').pending = (Place.text read).pending ++ partsAll ms
  | [], _, _ => ⟨[], read, rfl, by rw [partsAll, List.append_nil, List.nil_append]⟩
  | m :: ms, hhead, h => by
    obtain ⟨hm, hnext, hms⟩ := h
    rw [List.flatMap_cons, partsAll]
    cases hm' : m.isText with
    | false =>
      have hrun := run_write read m hm' hm
      obtain ⟨out, read', hrest, hout⟩ := run_writeAll [] ms (by simp) hms
      have happend := run_append hrun hrest
      refine ⟨_, read', happend, ?_⟩
      have hnone : (Place.text []).pending = [] := rfl
      rw [hnone, List.nil_append] at hout
      rw [List.append_assoc, hout, List.append_assoc]
    | true =>
      -- Nothing is read before a text, since no two texts stand side by side.
      have hread : read = [] := by
        by_contra hne
        have hfalse := hhead hne m rfl
        rw [hm'] at hfalse
        exact absurd hfalse (by simp)
      subst hread
      cases m with
      | element tag attributes children => exact absurd hm' (by simp [isText])
      | verbatim s => exact absurd hm (by simp [Readable])
      | text s =>
        have hwrite : (text s).write = escape s := by simp [write, writeAfter]
        have hescaped : ∀ c ∈ (escape s).toList, c ≠ '<' := fun c hc => (ne_of_mem_escape hc).1
        have htext := run_text hescaped []
        rw [List.nil_append] at htext
        obtain ⟨out, read', hrest, hout⟩ :=
          run_writeAll (escape s).toList ms (fun _ => hnext hm') hms
        have happend := run_append htext hrest
        rw [List.nil_append] at happend
        refine ⟨out, read', ?_, ?_⟩
        · rw [hwrite]
          exact happend
        · rw [hout, Place.pending, textParts_escape]
          rfl

end

mutual

theorem grow_parts (outer : List (String × List Attribute × List Markup)) (before : List Markup)
    (ps : List Part) : (m : Markup) →
    grow outer before (m.parts ++ ps) = grow outer (before ++ m.nodes) ps
  | .text s | .verbatim s => by
    rw [parts, nodes, textParts]
    by_cases hs : s = ""
    · rw [if_pos hs, if_pos hs, List.append_nil, List.nil_append]
    · rw [if_neg hs, if_neg hs]
      rfl
  | .element tag attributes children => by
    rw [parts, nodes, List.cons_append, List.append_assoc]
    show grow ((tag, attributes, before) :: outer) [] (partsAll children ++ _) = _
    rw [grow_partsAll, List.singleton_append, grow, if_pos rfl, List.nil_append]

theorem grow_partsAll (outer : List (String × List Attribute × List Markup))
    (before : List Markup) (ps : List Part) : (ms : List Markup) →
    grow outer before (partsAll ms ++ ps) = grow outer (before ++ nodesAll ms) ps
  | [] => by rw [partsAll, nodesAll, List.append_nil, List.nil_append]
  | m :: ms => by
    rw [partsAll, nodesAll, List.append_assoc, grow_parts, grow_partsAll, List.append_assoc]

end

theorem partsOf_write {m : Markup} (helement : m.isText = false) (h : m.Readable) :
    partsOf m.write = m.parts := by
  have hrun := run_write [] m helement h
  rw [partsOf, hrun]
  exact List.append_nil _

/-- What is written from an element is read back as the element. -/
theorem read?_write {m : Markup} (helement : m.isText = false) (h : m.Readable) :
    read? m.write = some m.nodes := by
  have hgrow := grow_parts [] [] [] m
  rw [List.append_nil] at hgrow
  rw [read?, partsOf_write helement h, hgrow]
  rfl

/-! ## Nesting -/

/-- Whether the tags among some parts are properly nested, where the elements `outer` are open. -/
def nested (outer : List String) : List Part → Bool
  | [] => outer.isEmpty
  | .text _ :: ps => nested outer ps
  | .opening tag _ :: ps => nested (tag :: outer) ps
  | .closing tag :: ps =>
    match outer with
    | t :: outer => t = tag && nested outer ps
    | [] => false

theorem nested_textParts (outer : List String) (s : String) (ps : List Part) :
    nested outer (textParts s ++ ps) = nested outer ps := by
  unfold textParts
  split <;> rfl

mutual

theorem nested_parts (outer : List String) (ps : List Part) : (m : Markup) →
    nested outer (m.parts ++ ps) = nested outer ps
  | .text s | .verbatim s => nested_textParts outer s ps
  | .element tag attributes children => by
    rw [parts, List.cons_append, List.append_assoc, nested, nested_partsAll, List.singleton_append,
      nested, decide_eq_true rfl, Bool.true_and]

theorem nested_partsAll (outer : List String) (ps : List Part) : (ms : List Markup) →
    nested outer (partsAll ms ++ ps) = nested outer ps
  | [] => rfl
  | m :: ms => by
    rw [partsAll, List.append_assoc, nested_parts, nested_partsAll]

end

end Markup

end FormulaTree
