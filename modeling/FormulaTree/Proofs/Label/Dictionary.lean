import FormulaTree.Outline.Layout
import FormulaTree.Proofs.Text.UpperCase

/-!
# Names in dictionaries and outlines

A dictionary knows a function by the upper case of its name, and of several entries for one function
the last one counts. The rows of an outline have the labels that the dictionary gives for the calls
as they are written: an outline asks for them by the upper case of the name, whose upper case is the
same again.
-/

namespace FormulaTree

namespace Label

namespace Dictionary

/-- The dictionary after entries are inserted, one after the other. -/
def insertAll (d : Dictionary) (added : List (String × Entry)) : Dictionary :=
  added.foldl (fun d a => d.insert a.1 a.2) d

theorem insertAll_concat (d : Dictionary) (added : List (String × Entry)) (a : String × Entry) :
    d.insertAll (added ++ [a]) = (d.insertAll added).insert a.1 a.2 := by
  simp only [insertAll, List.foldl_append, List.foldl_cons, List.foldl_nil]

/-- The entry of `f` is the last one that was inserted under a name with the same upper case, or else
the one that was there before. -/
theorem get?_insertAll (d : Dictionary) (added : List (String × Entry)) (f : String) :
    (d.insertAll added).get? f =
      ((added.reverse.find? fun a => Text.upperCase a.1 = Text.upperCase f).map Prod.snd).or
        (d.get? f) := by
  induction added using List.reverseRecOn with
  | nil => rfl
  | append_singleton added a ih =>
    rw [insertAll_concat, get?_insert, List.reverse_concat, List.find?_cons]
    by_cases h : Text.upperCase a.1 = Text.upperCase f
    · simp [h]
    · simp [h, ih]

theorem size_insert (d : Dictionary) (f : String) (e : Entry) :
    (d.insert f e).size = if (d.get? f).isSome then d.size else d.size + 1 := by
  simp only [size, insert, get?, Std.HashMap.size_insert, Std.HashMap.isSome_getElem?_eq_contains,
    Std.HashMap.mem_iff_contains]

/-- A dictionary has as many entries as there are different names, without regard to case. -/
theorem size_insertAll_empty (added : List (String × Entry)) :
    (empty.insertAll added).size = (added.map fun a => Text.upperCase a.1).toFinset.card := by
  induction added using List.reverseRecOn with
  | nil => rfl
  | append_singleton added a ih =>
    have hsome : ((empty.insertAll added).get? a.1).isSome =
        decide (Text.upperCase a.1 ∈ (added.map fun a => Text.upperCase a.1).toFinset) := by
      rw [Bool.eq_iff_iff]
      simp [get?_insertAll]
    rw [insertAll_concat, size_insert, ih, hsome, List.map_append, List.map_singleton,
      List.toFinset_append, List.toFinset_cons, List.toFinset_nil, insert_empty_eq,
      Finset.union_singleton, Finset.card_insert_eq_ite]
    simp only [decide_eq_true_eq]

theorem get?_congr (d : Dictionary) {f g : String} (h : Text.upperCase f = Text.upperCase g) :
    d.get? f = d.get? g := by
  rw [get?, get?, h]

end Dictionary

theorem builtin_congr {f g : String} (h : Text.upperCase f = Text.upperCase g) (index : Nat)
    (variant : Variant) (locale : Locale) :
    builtin f index variant locale = builtin g index variant locale := by
  rw [builtin, builtin, h]

/-- Names that differ in case only get the same labels. -/
theorem resolve_congr (d : Dictionary) {f g : String} (h : Text.upperCase f = Text.upperCase g)
    (index : Nat) (mode : Mode) (locale : Locale) :
    resolve d f index mode locale = resolve d g index mode locale := by
  simp only [resolve, d.get?_congr h, builtin_congr h]

theorem resolve_upperCase (d : Dictionary) (f : String) (index : Nat) (mode : Mode)
    (locale : Locale) :
    resolve d (Text.upperCase f) index mode locale = resolve d f index mode locale :=
  resolve_congr d (Text.upperCase_upperCase f) index mode locale

end Label

/-! ## The rows of an outline -/

mutual

/-- The calls of a block, each one before those in its arguments: the name in upper case, and the
labels of the rows. -/
def Block.callRows : Block → List (String × List String)
  | .line _ => []
  | .paren inner => inner.callRows
  | .binary left _ right => left.callRows ++ right.callRows
  | .call _ function _ rows => (function, rows.toList.map Prod.fst) :: rows.callRows

def Rows.callRows : Rows → List (String × List String)
  | .nil => []
  | .cons _ value rest => value.callRows ++ rest.callRows

end

namespace Expr

mutual

/-- The calls that stand below no sign, each one before those in its arguments: the name as it is
written, and the number of arguments. -/
def writtenCalls : Expr → List (String × Nat)
  | number _ | string _ | name _ | unary _ _ => []
  | binary left _ right => left.writtenCalls ++ right.writtenCalls
  | paren inner => inner.writtenCalls
  | call f args => (f, args.length) :: writtenCallsAll args

def writtenCallsAll : List Expr → List (String × Nat)
  | [] => []
  | e :: es => e.writtenCalls ++ writtenCallsAll es

end

end Expr

variable (label : String → Nat → String)

theorem Rows.toList_ofArgs (f : String) (index first : Nat) (es : List Expr) :
    (Rows.ofArgs label f index first es).toList.map Prod.fst =
      (List.range' index es.length).map (label f) := by
  induction es generalizing index first with
  | nil => rfl
  | cons e es ih =>
    rw [Rows.ofArgs, Rows.toList, List.map_cons, ih, List.length_cons, List.range'_succ,
      List.map_cons]

/-- The name of a call and the labels of its rows. -/
def labelledRows (call : String × Nat) : String × List String :=
  (Text.upperCase call.1, (List.range call.2).map (label (Text.upperCase call.1)))

mutual

theorem Block.callRows_ofExpr (first : Nat) : (e : Expr) →
    (Block.ofExpr label first e).callRows = e.writtenCalls.map (labelledRows label)
  | .number _ | .string _ | .name _ | .unary _ _ => rfl
  | .binary left _ right => by
    rw [Block.ofExpr, Block.callRows, Expr.writtenCalls, List.map_append,
      Block.callRows_ofExpr first left, Block.callRows_ofExpr _ right]
  | .paren inner => Block.callRows_ofExpr first inner
  | .call f args => by
    rw [Block.ofExpr, Block.callRows, Expr.writtenCalls, List.map_cons, Rows.toList_ofArgs,
      Rows.callRows_ofArgs, labelledRows, List.range_eq_range']

theorem Rows.callRows_ofArgs (f : String) (index first : Nat) : (es : List Expr) →
    (Rows.ofArgs label f index first es).callRows =
      (Expr.writtenCallsAll es).map (labelledRows label)
  | [] => rfl
  | e :: es => by
    rw [Rows.ofArgs, Rows.callRows, Expr.writtenCallsAll, List.map_append,
      Block.callRows_ofExpr first e, Rows.callRows_ofArgs f]

end

namespace Outline

/-- Row by row, an outline has the labels that are resolved for its calls as they are written. -/
theorem callRows_ofExpr (settings : Settings) (header : String) (e : Expr) :
    (ofExpr settings header e).root.callRows = e.writtenCalls.map fun (f, count) =>
      (Text.upperCase f, (List.range count).map fun index =>
        Label.resolve settings.dictionary f index settings.mode settings.locale) := by
  have hlabel (f : String) : settings.label (Text.upperCase f) = fun index =>
      Label.resolve settings.dictionary f index settings.mode settings.locale := by
    ext index : 1
    rw [Settings.label, Label.resolve_upperCase]
  show (Block.ofExpr settings.label 0 e).callRows = _
  rw [Block.callRows_ofExpr]
  apply List.map_congr_left
  intro call _
  rw [labelledRows, hlabel]

end Outline

end FormulaTree
