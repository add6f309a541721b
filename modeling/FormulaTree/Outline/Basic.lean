import FormulaTree.Operator

/-!
# Outlines

An `Outline` is the tree of blocks that shows a formula, with one mark for each call that says
whether the call is open. A closed call is shown on one line. The blocks never change; the
operations on an outline only open and close calls.
-/

namespace FormulaTree

mutual

inductive Block where
  /-- An operand, in its one-line form. -/
  | line (text : String)
  /-- Parentheses that were written. -/
  | paren (inner : Block)
  | binary (left : Block) (o : BinaryOp) (right : Block)
  /-- A call: its number in the outline, its name in upper case, its arguments on one line for when
  it is closed, and a row for each argument. -/
  | call (id : Nat) (function : String) (preview : String) (rows : Rows)

inductive Rows where
  | nil
  | cons (label : String) (value : Block) (rest : Rows)

end

deriving instance Repr for Block, Rows

/-- What is listed of a call: its number and name, the number of calls around it, and whether it is
open. -/
structure CallInfo where
  id : Nat
  function : String
  depth : Nat
  isOpen : Bool
deriving DecidableEq, Repr

mutual

def Block.callCount : Block → Nat
  | .line _ => 0
  | .paren inner => inner.callCount
  | .binary left _ right => left.callCount + right.callCount
  | .call _ _ _ rows => rows.callCount + 1

def Rows.callCount : Rows → Nat
  | .nil => 0
  | .cons _ value rest => value.callCount + rest.callCount

end

mutual

/-- The calls in a block, each one before those in its arguments; `isOpen` says which are open, and
`depth` calls are around the block. -/
def Block.calls (isOpen : Nat → Bool) (depth : Nat) : Block → List CallInfo
  | .line _ => []
  | .paren inner => inner.calls isOpen depth
  | .binary left _ right => left.calls isOpen depth ++ right.calls isOpen depth
  | .call id function _ rows =>
    ⟨id, function, depth, isOpen id⟩ :: rows.calls isOpen (depth + 1)

def Rows.calls (isOpen : Nat → Bool) (depth : Nat) : Rows → List CallInfo
  | .nil => []
  | .cons _ value rest => value.calls isOpen depth ++ rest.calls isOpen depth

end

def Rows.toList : Rows → List (String × Block)
  | .nil => []
  | .cons label value rest => (label, value) :: rest.toList

/-- A formula as a tree of blocks. -/
structure Outline where
  /-- The formula as it was given. -/
  header : String
  root : Block
  /-- Whether each call is open, by its number. -/
  marks : Array Bool
  size_marks : marks.size = root.callCount

namespace Outline

/-- The outline of a block in which every call is open. -/
def ofBlock (header : String) (root : Block) : Outline where
  header := header
  root := root
  marks := Array.replicate root.callCount true
  size_marks := by simp

def isOpen (o : Outline) (id : Nat) : Bool :=
  o.marks[id]?.getD true

/-- All calls, each one before those in its arguments. -/
def calls (o : Outline) : List CallInfo :=
  o.root.calls o.isOpen 0

/-- The formula is shown above the blocks only while a call at the root is closed. -/
def headerVisible (o : Outline) : Bool :=
  match o.root with
  | .call id _ _ _ => !o.isOpen id
  | _ => false

/-- Opens or closes the call `id`, if there is one. -/
def setOpen? (o : Outline) (id : Nat) (isOpen : Bool) : Option Outline :=
  if id < o.marks.size then
    some { o with
      marks := o.marks.setIfInBounds id isOpen
      size_marks := by simp [o.size_marks] }
  else
    none

/-- Opens the call `id` if it is closed and closes it if it is open, if there is one. -/
def toggle? (o : Outline) (id : Nat) : Option Outline :=
  o.setOpen? id (!o.isOpen id)

def setAll (o : Outline) (isOpen : Bool) : Outline :=
  { o with
    marks := Array.replicate o.root.callCount isOpen
    size_marks := by simp }

def collapseAll (o : Outline) : Outline :=
  o.setAll false

def expandAll (o : Outline) : Outline :=
  o.setAll true

/-- Opens the call at the root, if there is one: while it is open there is no header to click. -/
def clickHeader (o : Outline) : Outline :=
  match o.root with
  | .call id _ _ _ => (o.setOpen? id true).getD o
  | _ => o

end Outline

end FormulaTree
