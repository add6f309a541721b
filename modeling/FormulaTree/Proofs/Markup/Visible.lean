import FormulaTree.Proofs.Markup.Reading

/-!
# What a reader of a page sees

A style sheet is a list of rules. An element is hidden when the last of the rules that apply to it
and give it a `display` gives it `none`, and what stands in a closed `details` is hidden except for
its summary. The visible text of a page is the same before and after it is written and read back.
-/

namespace FormulaTree

namespace Markup

/-- What a selector asks of one element. -/
structure Simple where
  tag? : Option String := none
  className? : Option String := none
  /-- Whether the element has to be open, or has to be closed. -/
  isOpen? : Option Bool := none
deriving DecidableEq, Repr

/-- What a selector asks of one element and of some child of it. -/
structure Compound extends Simple where
  child? : Option Simple := none
deriving DecidableEq, Repr

structure Rule where
  /-- An element for each, every one the parent of the next; the rule applies to the last. -/
  path : List Compound
  declarations : List (String × String)
deriving DecidableEq, Repr

/-! ## How rules are written -/

def Simple.write (s : Simple) : String :=
  s.tag?.getD "" ++ (s.className?.map ("." ++ ·)).getD "" ++
    match s.isOpen? with
    | some true => "[open]"
    | some false => ":not([open])"
    | none => ""

def Compound.write (c : Compound) : String :=
  c.toSimple.write ++ (c.child?.map fun s => ":has(>" ++ s.write ++ ")").getD ""

def Rule.write (r : Rule) : String :=
  ">".intercalate (r.path.map Compound.write) ++ "\x7b" ++
    ";".intercalate (r.declarations.map fun d => d.1 ++ ":" ++ d.2) ++ "\x7d"

/-! ## Where rules apply -/

def hasOpen (attributes : List Attribute) : Bool :=
  attributes.any (·.name = "open")

/-- Whether a node is as asked. An element has one class at most. -/
def Simple.holds (s : Simple) : Markup → Bool
  | element tag attributes _ =>
    s.tag?.all (· = tag) && s.className?.all (fun c => ⟨"class", some c⟩ ∈ attributes)
      && s.isOpen?.all (· = hasOpen attributes)
  | _ => false

def children : Markup → List Markup
  | element _ _ children => children
  | _ => []

def Compound.holds (c : Compound) (m : Markup) : Bool :=
  c.toSimple.holds m && c.child?.all fun s => m.children.any s.holds

/-- Whether the nodes are as asked, one by one from the innermost on. -/
def holdAll : List Compound → List Markup → Bool
  | [], _ => true
  | c :: cs, m :: ms => c.holds m && holdAll cs ms
  | _ :: _, [] => false

/-- Whether a rule applies to a node, which stands before the nodes around it. -/
def Rule.applies (r : Rule) (ms : List Markup) : Bool :=
  holdAll r.path.reverse ms

/-- How a node is displayed, if a rule says so. The last rule that does counts. -/
def display? (sheet : List Rule) (ms : List Markup) : Option String :=
  ((sheet.filter (·.applies ms)).filterMap (·.declarations.lookup "display")).getLast?

/-! ## What is visible -/

def hasTag (name : String) : Markup → Bool
  | element tag _ _ => tag = name
  | _ => false

/-- Whether a node is a `details` element that is closed. -/
def isClosed : Markup → Bool
  | element tag attributes _ => tag = "details" && !hasOpen attributes
  | _ => false

/-- Whether a node is hidden with everything in it, by the nodes around it from the nearest on. A
style sheet is never shown. -/
def isHidden (sheet : List Rule) (m : Markup) (around : List Markup) : Bool :=
  (around.head?.any isClosed && !m.hasTag "summary") || m.hasTag "style" ||
    display? sheet (m :: around) = some "none"

mutual

/-- The text of a node that can be seen, by the nodes around it from the nearest on. -/
def visible (sheet : List Rule) (around : List Markup) : Markup → List Char
  | text s => if isHidden sheet (text s) around then [] else s.toList
  | verbatim s => if isHidden sheet (verbatim s) around then [] else s.toList
  | element tag attributes children =>
    if isHidden sheet (element tag attributes children) around then []
    else visibleAll sheet (element tag attributes children :: around) children

def visibleAll (sheet : List Rule) (around : List Markup) : List Markup → List Char
  | [] => []
  | m :: ms => visible sheet around m ++ visibleAll sheet around ms

end

/-! ## Writing and reading changes nothing about it -/

/-- A node as it is read back, if it is. -/
def readBack : Markup → Markup
  | text s | verbatim s => text s
  | element tag attributes children => element tag attributes (nodesAll children)

@[simp] theorem Simple.holds_readBack (s : Simple) (m : Markup) :
    s.holds m.readBack = s.holds m := by
  cases m <;> rfl

@[simp] theorem isClosed_readBack (m : Markup) : m.readBack.isClosed = m.isClosed := by
  cases m <;> rfl

@[simp] theorem hasTag_readBack (name : String) (m : Markup) :
    m.readBack.hasTag name = m.hasTag name := by
  cases m <;> rfl

theorem any_holds_nodesAll (s : Simple) (ms : List Markup) :
    (nodesAll ms).any s.holds = ms.any s.holds := by
  induction ms with
  | nil => rfl
  | cons m ms ih =>
    rw [nodesAll, List.any_append, List.any_cons, ih]
    congr 1
    cases m with
    | text t | verbatim t =>
      rw [nodes]
      split <;> rfl
    | element tag attributes children => exact Bool.or_false _

theorem children_readBack (m : Markup) : m.readBack.children = nodesAll m.children := by
  cases m <;> rfl

@[simp] theorem Compound.holds_readBack (c : Compound) (m : Markup) :
    c.holds m.readBack = c.holds m := by
  simp only [Compound.holds, Simple.holds_readBack, children_readBack, any_holds_nodesAll]

theorem holdAll_readBack (cs : List Compound) (ms : List Markup) :
    holdAll cs (ms.map readBack) = holdAll cs ms := by
  induction cs generalizing ms with
  | nil => simp [holdAll]
  | cons c cs ih =>
    cases ms with
    | nil => rfl
    | cons m ms => rw [List.map_cons, holdAll, holdAll, Compound.holds_readBack, ih]

theorem display?_readBack (sheet : List Rule) (ms : List Markup) :
    display? sheet (ms.map readBack) = display? sheet ms := by
  simp only [display?, Rule.applies, holdAll_readBack]

theorem isHidden_readBack (sheet : List Rule) (m : Markup) (around : List Markup) :
    isHidden sheet m.readBack (around.map readBack) = isHidden sheet m around := by
  have hdisplay := display?_readBack sheet (m :: around)
  have hclosed : (around.map readBack).head?.any isClosed = around.head?.any isClosed := by
    cases around with
    | nil => rfl
    | cons n around => exact isClosed_readBack n
  rw [List.map_cons] at hdisplay
  rw [isHidden, isHidden, hclosed, hdisplay, hasTag_readBack, hasTag_readBack]

theorem visibleAll_append (sheet : List Rule) (around ms ns : List Markup) :
    visibleAll sheet around (ms ++ ns) =
      visibleAll sheet around ms ++ visibleAll sheet around ns := by
  induction ms with
  | nil => rfl
  | cons m ms ih => rw [List.cons_append, visibleAll, visibleAll, ih, List.append_assoc]

/-- A text is read back as it is, unless it is empty. -/
theorem visibleAll_textNodes (sheet : List Rule) (around : List Markup) {m : Markup} {s : String}
    (h : m.readBack = text s) :
    visibleAll sheet (around.map readBack) (if s = "" then [] else [text s]) =
      if isHidden sheet m around then [] else s.toList := by
  by_cases hs : s = ""
  · rw [if_pos hs, hs]
    simp [visibleAll]
  · have hread := isHidden_readBack sheet m around
    rw [h] at hread
    rw [if_neg hs, visibleAll, visibleAll, List.append_nil, visible, hread]

mutual

theorem visibleAll_nodes (sheet : List Rule) (around : List Markup) : (m : Markup) →
    visibleAll sheet (around.map readBack) m.nodes = visible sheet around m
  | .text s => visibleAll_textNodes sheet around rfl
  | .verbatim s => visibleAll_textNodes sheet around rfl
  | .element tag attributes children => by
    have hhidden := isHidden_readBack sheet (element tag attributes children) around
    have hchildren :=
      visibleAll_nodesAll sheet (element tag attributes children :: around) children
    -- What is read is the element again, with its children under the element that is read.
    rw [nodes, visible, visibleAll, visibleAll, List.append_nil, visible, ← hhidden, ← hchildren]
    rfl

theorem visibleAll_nodesAll (sheet : List Rule) (around : List Markup) : (ms : List Markup) →
    visibleAll sheet (around.map readBack) (nodesAll ms) = visibleAll sheet around ms
  | [] => rfl
  | m :: ms => by
    rw [nodesAll, visibleAll_append, visibleAll_nodes, visibleAll_nodesAll, visibleAll]

end

end Markup

end FormulaTree
