import FormulaTree.Outline.Layout
import Mathlib

/-!
# The numbers of calls

The calls of an outline are numbered from 0 without a gap, each one before those in its arguments.
What depends on the marks of a block depends on the marks with its own numbers only.
-/

namespace FormulaTree

mutual

/-- Whether the calls of a block are numbered in order, from `first` on. -/
def Block.Numbered (first : Nat) : Block → Prop
  | .line _ => True
  | .paren inner => inner.Numbered first
  | .binary left _ right => left.Numbered first ∧ right.Numbered (first + left.callCount)
  | .call id _ _ rows => id = first ∧ rows.Numbered (first + 1)

def Rows.Numbered (first : Nat) : Rows → Prop
  | .nil => True
  | .cons _ value rest => value.Numbered first ∧ rest.Numbered (first + value.callCount)

end

/-- Whether two markings agree on `count` numbers from `first` on. -/
def AgreeOn (first count : Nat) (isOpen isOpen' : Nat → Bool) : Prop :=
  ∀ id, first ≤ id → id < first + count → isOpen id = isOpen' id

namespace AgreeOn

variable {first count m n : Nat} {isOpen isOpen' : Nat → Bool}

theorem left (h : AgreeOn first (m + n) isOpen isOpen') : AgreeOn first m isOpen isOpen' := by
  intro id hle hlt
  apply h id hle
  omega

theorem right (h : AgreeOn first (m + n) isOpen isOpen') : AgreeOn (first + m) n isOpen isOpen' := by
  intro id hle hlt
  apply h id <;> omega

theorem head (h : AgreeOn first (n + 1) isOpen isOpen') : isOpen first = isOpen' first := by
  apply h first <;> omega

theorem tail (h : AgreeOn first (n + 1) isOpen isOpen') : AgreeOn (first + 1) n isOpen isOpen' := by
  intro id hle hlt
  apply h id <;> omega

theorem append (hleft : AgreeOn first m isOpen isOpen')
    (hright : AgreeOn (first + m) n isOpen isOpen') : AgreeOn first (m + n) isOpen isOpen' := by
  intro id hle hlt
  by_cases hid : id < first + m
  · exact hleft id hle hid
  · apply hright id <;> omega

theorem cons (hhead : isOpen first = isOpen' first) (htail : AgreeOn (first + 1) n isOpen isOpen') :
    AgreeOn first (n + 1) isOpen isOpen' := by
  intro id hle hlt
  by_cases hid : id = first
  · rw [hid, hhead]
  · apply htail id <;> omega

theorem update_of_lt (isOpen : Nat → Bool) {id : Nat} (h : id < first) (value : Bool) :
    AgreeOn first count isOpen (Function.update isOpen id value) := by
  intro i hle _
  have hne : i ≠ id := by omega
  rw [Function.update_of_ne hne]

theorem update_of_ge (isOpen : Nat → Bool) {id : Nat} (h : first + count ≤ id) (value : Bool) :
    AgreeOn first count isOpen (Function.update isOpen id value) := by
  intro i _ hlt
  have hne : i ≠ id := by omega
  rw [Function.update_of_ne hne]

end AgreeOn

/-! ## The calls of an expression -/

namespace Expr

mutual

/-- The calls that stand below no sign, each one before those in its arguments: the name in upper
case, and the number of calls around it. -/
def listing (depth : Nat) : Expr → List (String × Nat)
  | number _ | string _ | name _ | unary _ _ => []
  | binary left _ right => left.listing depth ++ right.listing depth
  | paren inner => inner.listing depth
  | call f args => (Text.upperCase f, depth) :: listingAll (depth + 1) args

def listingAll (depth : Nat) : List Expr → List (String × Nat)
  | [] => []
  | e :: es => e.listing depth ++ listingAll depth es

end

mutual

theorem length_listing (depth : Nat) : (e : Expr) → (e.listing depth).length = e.blockCount
  | number _ | string _ | name _ | unary _ _ => rfl
  | binary left _ right => by
    rw [listing, blockCount, List.length_append, left.length_listing, right.length_listing]
  | paren inner => inner.length_listing depth
  | call f args => by
    rw [listing, blockCount, List.length_cons, length_listingAll]

theorem length_listingAll (depth : Nat) :
    (es : List Expr) → (listingAll depth es).length = blockCountAll es
  | [] => rfl
  | e :: es => by
    rw [listingAll, blockCountAll, List.length_append, e.length_listing, length_listingAll]

end

end Expr

/-- What is listed of the call `id`. -/
def CallInfo.ofEntry (isOpen : Nat → Bool) (entry : (String × Nat) × Nat) : CallInfo :=
  ⟨entry.2, entry.1.1, entry.1.2, isOpen entry.2⟩

variable (label : String → Nat → String)

mutual

theorem Block.callCount_ofExpr (first : Nat) : (e : Expr) →
    (Block.ofExpr label first e).callCount = e.blockCount
  | .number _ | .string _ | .name _ | .unary _ _ => rfl
  | .binary left _ right => by
    rw [Block.ofExpr, Block.callCount, Expr.blockCount, Block.callCount_ofExpr first left, Block.callCount_ofExpr _ right]
  | .paren inner => Block.callCount_ofExpr first inner
  | .call f args => by
    rw [Block.ofExpr, Block.callCount, Expr.blockCount, Rows.callCount_ofArgs]

theorem Rows.callCount_ofArgs (f : String) (index first : Nat) : (es : List Expr) →
    (Rows.ofArgs label f index first es).callCount = Expr.blockCountAll es
  | [] => rfl
  | e :: es => by
    rw [Rows.ofArgs, Rows.callCount, Expr.blockCountAll, Block.callCount_ofExpr, Rows.callCount_ofArgs]

end

mutual

theorem Block.numbered_ofExpr (first : Nat) : (e : Expr) →
    (Block.ofExpr label first e).Numbered first
  | .number _ | .string _ | .name _ | .unary _ _ => trivial
  | .binary left _ right => by
    rw [Block.ofExpr, Block.Numbered, Block.callCount_ofExpr]
    exact ⟨Block.numbered_ofExpr first left, Block.numbered_ofExpr _ right⟩
  | .paren inner => Block.numbered_ofExpr first inner
  | .call f args => ⟨rfl, Rows.numbered_ofArgs _ 0 (first + 1) args⟩

theorem Rows.numbered_ofArgs (f : String) (index first : Nat) : (es : List Expr) →
    (Rows.ofArgs label f index first es).Numbered first
  | [] => trivial
  | e :: es => by
    rw [Rows.ofArgs, Rows.Numbered, Block.callCount_ofExpr]
    exact ⟨Block.numbered_ofExpr first e, Rows.numbered_ofArgs f _ _ es⟩

end

mutual

theorem Block.calls_ofExpr (isOpen : Nat → Bool) (depth first : Nat) : (e : Expr) →
    (Block.ofExpr label first e).calls isOpen depth =
      ((e.listing depth).zipIdx first).map (CallInfo.ofEntry isOpen)
  | .number _ | .string _ | .name _ | .unary _ _ => rfl
  | .binary left _ right => by
    rw [Block.ofExpr, Block.calls, Expr.listing, List.zipIdx_append, List.map_append, Expr.length_listing,
      Block.calls_ofExpr isOpen depth first left, Block.calls_ofExpr isOpen depth _ right]
  | .paren inner => Block.calls_ofExpr isOpen depth first inner
  | .call f args => by
    rw [Block.ofExpr, Block.calls, Expr.listing, List.zipIdx_cons, List.map_cons, Rows.calls_ofArgs]
    rfl

theorem Rows.calls_ofArgs (isOpen : Nat → Bool) (depth : Nat) (f : String) (index first : Nat) :
    (es : List Expr) →
    (Rows.ofArgs label f index first es).calls isOpen depth =
      ((Expr.listingAll depth es).zipIdx first).map (CallInfo.ofEntry isOpen)
  | [] => rfl
  | e :: es => by
    rw [Rows.ofArgs, Rows.calls, Expr.listingAll, List.zipIdx_append, List.map_append, Expr.length_listing,
      Block.calls_ofExpr isOpen depth first e, Rows.calls_ofArgs isOpen depth f]

end

end FormulaTree
