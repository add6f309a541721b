import FormulaTree.Proofs.Formula
import FormulaTree.Proofs.Outline.Folding

/-!
# Trees that hold their marks

In a marked tree every call holds its own mark, and a call is found by looking through the tree for
its number. An outline and the marked tree of it stay together whatever is done to them, since no
number stands in the tree twice.
-/

namespace FormulaTree

mutual

/-- A block in which each call says itself whether it is open. -/
inductive MarkedBlock where
  | line (text : String)
  | paren (inner : MarkedBlock)
  | binary (left : MarkedBlock) (o : BinaryOp) (right : MarkedBlock)
  | call (id : Nat) (function preview : String) (isOpen : Bool) (rows : MarkedRows)

inductive MarkedRows where
  | nil
  | cons (label : String) (value : MarkedBlock) (rest : MarkedRows)

end

/-- A mark found somewhere, and the whole with another mark put in its place. -/
structure MarkPlace (α : Type) where
  mark : Bool
  put : Bool → α

def MarkPlace.map {α β : Type} (f : α → β) (p : MarkPlace α) : MarkPlace β :=
  ⟨p.mark, fun b => f (p.put b)⟩

mutual

/-- Looks for the call `id`: from left to right, and in a call before its arguments. -/
def MarkedBlock.find? (id : Nat) : MarkedBlock → Option (MarkPlace MarkedBlock)
  | .line _ => none
  | .paren inner => (inner.find? id).map (.map .paren)
  | .binary left o right =>
    ((left.find? id).map (.map fun b => .binary b o right)).or
      ((right.find? id).map (.map fun b => .binary left o b))
  | .call i f preview isOpen rows =>
    if i = id then some ⟨isOpen, fun b => .call i f preview b rows⟩
    else (rows.find? id).map (.map fun rs => .call i f preview isOpen rs)

def MarkedRows.find? (id : Nat) : MarkedRows → Option (MarkPlace MarkedRows)
  | .nil => none
  | .cons label value rest =>
    ((value.find? id).map (.map fun b => .cons label b rest)).or
      ((rest.find? id).map (.map fun rs => .cons label value rs))

end

mutual

def MarkedBlock.setAll (isOpen : Bool) : MarkedBlock → MarkedBlock
  | .line text => .line text
  | .paren inner => .paren (inner.setAll isOpen)
  | .binary left o right => .binary (left.setAll isOpen) o (right.setAll isOpen)
  | .call id f preview _ rows => .call id f preview isOpen (rows.setAll isOpen)

def MarkedRows.setAll (isOpen : Bool) : MarkedRows → MarkedRows
  | .nil => .nil
  | .cons label value rest => .cons label (value.setAll isOpen) (rest.setAll isOpen)

end

mutual

def MarkedBlock.calls (depth : Nat) : MarkedBlock → List CallInfo
  | .line _ => []
  | .paren inner => inner.calls depth
  | .binary left _ right => left.calls depth ++ right.calls depth
  | .call id f _ isOpen rows => ⟨id, f, depth, isOpen⟩ :: rows.calls (depth + 1)

def MarkedRows.calls (depth : Nat) : MarkedRows → List CallInfo
  | .nil => []
  | .cons _ value rest => value.calls depth ++ rest.calls depth

end

namespace MarkedBlock

def headerVisible : MarkedBlock → Bool
  | call _ _ _ isOpen _ => !isOpen
  | _ => false

def clickHeader : MarkedBlock → MarkedBlock
  | call id f preview false rows => call id f preview true rows
  | b => b

/-- One fold of a marked tree. -/
def fold (b : MarkedBlock) : Fold → FoldAnswer × MarkedBlock
  | .toggle id =>
    match b.find? id with
    | some place => (.toggled (some !place.mark), place.put !place.mark)
    | none => (.toggled none, b)
  | .setOpen id isOpen =>
    match b.find? id with
    | some place => (.found true, place.put isOpen)
    | none => (.found false, b)
  | .collapseAll => (.done, b.setAll false)
  | .expandAll => (.done, b.setAll true)
  | .clickHeader => (.done, b.clickHeader)

end MarkedBlock

/-! ## Blocks with their marks -/

mutual

/-- A block with its marks put into it. -/
def Block.marked (isOpen : Nat → Bool) : Block → MarkedBlock
  | .line text => .line text
  | .paren inner => .paren (inner.marked isOpen)
  | .binary left o right => .binary (left.marked isOpen) o (right.marked isOpen)
  | .call id f preview rows => .call id f preview (isOpen id) (rows.marked isOpen)

def Rows.marked (isOpen : Nat → Bool) : Rows → MarkedRows
  | .nil => .nil
  | .cons label value rest => .cons label (value.marked isOpen) (rest.marked isOpen)

end

mutual

theorem Block.calls_marked (isOpen : Nat → Bool) (depth : Nat) : (b : Block) →
    (b.marked isOpen).calls depth = b.calls isOpen depth
  | .line _ => rfl
  | .paren inner => inner.calls_marked isOpen depth
  | .binary left _ right => by
    rw [Block.marked, MarkedBlock.calls, Block.calls, left.calls_marked, right.calls_marked]
  | .call _ _ _ rows => by
    rw [Block.marked, MarkedBlock.calls, Block.calls, rows.calls_marked]

theorem Rows.calls_marked (isOpen : Nat → Bool) (depth : Nat) : (rs : Rows) →
    (rs.marked isOpen).calls depth = rs.calls isOpen depth
  | .nil => rfl
  | .cons _ value rest => by
    rw [Rows.marked, MarkedRows.calls, Rows.calls, value.calls_marked, rest.calls_marked]

end

mutual

theorem Block.setAll_marked (isOpen : Nat → Bool) (b : Bool) : (block : Block) →
    (block.marked isOpen).setAll b = block.marked fun _ => b
  | .line _ => rfl
  | .paren inner => by
    rw [Block.marked, MarkedBlock.setAll, Block.marked, inner.setAll_marked]
  | .binary left _ right => by
    rw [Block.marked, MarkedBlock.setAll, Block.marked, left.setAll_marked, right.setAll_marked]
  | .call _ _ _ rows => by
    rw [Block.marked, MarkedBlock.setAll, Block.marked, rows.setAll_marked]

theorem Rows.setAll_marked (isOpen : Nat → Bool) (b : Bool) : (rs : Rows) →
    (rs.marked isOpen).setAll b = rs.marked fun _ => b
  | .nil => rfl
  | .cons _ value rest => by
    rw [Rows.marked, MarkedRows.setAll, Rows.marked, value.setAll_marked, rest.setAll_marked]

end

mutual

theorem Block.marked_congr {isOpen isOpen' : Nat → Bool} : {first : Nat} → (b : Block) →
    b.Numbered first → AgreeOn first b.callCount isOpen isOpen' →
    b.marked isOpen = b.marked isOpen'
  | _, .line _, _, _ => rfl
  | _, .paren inner, h, hagree => by
    rw [Block.marked, Block.marked, inner.marked_congr h hagree]
  | _, .binary left _ right, h, hagree => by
    rw [Block.marked, Block.marked, left.marked_congr h.1 hagree.left,
      right.marked_congr h.2 hagree.right]
  | _, .call id _ _ rows, h, hagree => by
    rw [Block.marked, Block.marked, rows.marked_congr h.2 hagree.tail, h.1, hagree.head]

theorem Rows.marked_congr {isOpen isOpen' : Nat → Bool} : {first : Nat} → (rs : Rows) →
    rs.Numbered first → AgreeOn first rs.callCount isOpen isOpen' →
    rs.marked isOpen = rs.marked isOpen'
  | _, .nil, _, _ => rfl
  | _, .cons _ value rest, h, hagree => by
    rw [Rows.marked, Rows.marked, value.marked_congr h.1 hagree.left,
      rest.marked_congr h.2 hagree.right]

end

mutual

theorem Block.find?_marked_eq_none (isOpen : Nat → Bool) (id : Nat) : {first : Nat} →
    (b : Block) → b.Numbered first → id < first ∨ first + b.callCount ≤ id →
    (b.marked isOpen).find? id = none
  | _, .line _, _, _ => rfl
  | _, .paren inner, h, hid => by
    rw [Block.marked, MarkedBlock.find?, inner.find?_marked_eq_none isOpen id h hid, Option.map_none]
  | first, .binary left _ right, h, hid => by
    rw [Block.callCount] at hid
    have hleft := left.find?_marked_eq_none isOpen id h.1 (by omega)
    have hright := right.find?_marked_eq_none isOpen id h.2 (by omega)
    rw [Block.marked, MarkedBlock.find?, hleft, hright]
    rfl
  | first, .call i _ _ rows, h, hid => by
    rw [Block.callCount] at hid
    have hrows := rows.find?_marked_eq_none isOpen id h.2 (by omega)
    have hne : i ≠ id := by
      have hfirst := h.1
      omega
    rw [Block.marked, MarkedBlock.find?, if_neg hne, hrows, Option.map_none]

theorem Rows.find?_marked_eq_none (isOpen : Nat → Bool) (id : Nat) : {first : Nat} →
    (rs : Rows) → rs.Numbered first → id < first ∨ first + rs.callCount ≤ id →
    (rs.marked isOpen).find? id = none
  | _, .nil, _, _ => rfl
  | first, .cons _ value rest, h, hid => by
    rw [Rows.callCount] at hid
    have hvalue := value.find?_marked_eq_none isOpen id h.1 (by omega)
    have hrest := rest.find?_marked_eq_none isOpen id h.2 (by omega)
    rw [Rows.marked, MarkedRows.find?, hvalue, hrest]
    rfl

end

mutual

/-- The search ends at the only call with the number, and what is put there changes its mark
alone. -/
theorem Block.find?_marked (isOpen : Nat → Bool) {id : Nat} : {first : Nat} →
    (b : Block) → b.Numbered first → first ≤ id → id < first + b.callCount →
    (b.marked isOpen).find? id =
      some ⟨isOpen id, fun v => b.marked (Function.update isOpen id v)⟩
  | _, .line _, _, hle, hlt => by
    rw [Block.callCount] at hlt
    omega
  | _, .paren inner, h, hle, hlt => by
    rw [Block.marked, MarkedBlock.find?, inner.find?_marked isOpen h hle hlt]
    rfl
  | first, .binary left o right, h, hle, hlt => by
    rw [Block.callCount] at hlt
    rw [Block.marked, MarkedBlock.find?]
    by_cases hid : id < first + left.callCount
    · rw [left.find?_marked isOpen h.1 hle hid]
      -- The right operand holds greater numbers, so it is as before.
      have hright (v : Bool) := right.marked_congr h.2 (.update_of_lt isOpen hid v)
      simp only [Option.map_some, Option.some_or, MarkPlace.map, Block.marked, ← hright]
    · have hge : first + left.callCount ≤ id := by omega
      rw [left.find?_marked_eq_none isOpen id h.1 (.inr hge),
        right.find?_marked isOpen h.2 hge (by omega)]
      have hleft (v : Bool) := left.marked_congr h.1 (.update_of_ge isOpen hge v)
      simp only [Option.map_none, Option.map_some, Option.none_or, MarkPlace.map, Block.marked,
        ← hleft]
  | first, .call i f preview rows, h, hle, hlt => by
    rw [Block.callCount] at hlt
    have hfirst : i = first := h.1
    rw [Block.marked, MarkedBlock.find?]
    by_cases hid : i = id
    · have hlt' : id < first + 1 := by omega
      have hrows (v : Bool) := rows.marked_congr h.2 (.update_of_lt isOpen hlt' v)
      rw [if_pos hid, hid]
      simp only [Block.marked, Function.update_self, ← hrows]
    · rw [if_neg hid, rows.find?_marked isOpen h.2 (by omega) (by omega)]
      simp only [Option.map_some, MarkPlace.map, Block.marked, Function.update_of_ne hid]

theorem Rows.find?_marked (isOpen : Nat → Bool) {id : Nat} : {first : Nat} →
    (rs : Rows) → rs.Numbered first → first ≤ id → id < first + rs.callCount →
    (rs.marked isOpen).find? id =
      some ⟨isOpen id, fun v => rs.marked (Function.update isOpen id v)⟩
  | _, .nil, _, hle, hlt => by
    rw [Rows.callCount] at hlt
    omega
  | first, .cons label value rest, h, hle, hlt => by
    rw [Rows.callCount] at hlt
    rw [Rows.marked, MarkedRows.find?]
    by_cases hid : id < first + value.callCount
    · rw [value.find?_marked isOpen h.1 hle hid]
      have hrest (v : Bool) := rest.marked_congr h.2 (.update_of_lt isOpen hid v)
      simp only [Option.map_some, Option.some_or, MarkPlace.map, Rows.marked, ← hrest]
    · have hge : first + value.callCount ≤ id := by omega
      rw [value.find?_marked_eq_none isOpen id h.1 (.inr hge),
        rest.find?_marked isOpen h.2 hge (by omega)]
      have hvalue (v : Bool) := value.marked_congr h.1 (.update_of_ge isOpen hge v)
      simp only [Option.map_none, Option.map_some, Option.none_or, MarkPlace.map, Rows.marked,
        ← hvalue]

end

namespace Outline

variable {o p : Outline}

/-- The marked tree of an outline. -/
def marked (o : Outline) : MarkedBlock :=
  o.root.marked o.isOpen

theorem calls_marked (o : Outline) : o.marked.calls 0 = o.calls :=
  o.root.calls_marked o.isOpen 0

theorem headerVisible_marked (o : Outline) : o.marked.headerVisible = o.headerVisible := by
  unfold marked headerVisible
  cases o.root <;> rfl

/-- Whatever has the same blocks and bits has the same marked tree. -/
theorem marked_of_folds {bits : List Bool} {isOpen : Nat → Bool} (h : o.root.Numbered 0)
    (hp : Folds o p bits)
    (hagree : ∀ id, id < o.bits.length → bits[id]?.getD true = isOpen id) :
    p.marked = o.root.marked isOpen := by
  unfold marked
  rw [hp.root_eq]
  refine o.root.marked_congr h fun id _ hlt => ?_
  rw [isOpen_eq_bits, hp.bits_eq]
  apply hagree
  rw [length_bits]
  omega

theorem find?_marked_of_lt (h : o.root.Numbered 0) {id : Nat} (hid : id < o.bits.length) :
    o.marked.find? id =
      some ⟨o.isOpen id, fun v => o.root.marked (Function.update o.isOpen id v)⟩ := by
  rw [length_bits] at hid
  exact o.root.find?_marked o.isOpen h (Nat.zero_le id) (by omega)

theorem find?_marked_of_ge (h : o.root.Numbered 0) {id : Nat} (hid : o.bits.length ≤ id) :
    o.marked.find? id = none := by
  rw [length_bits] at hid
  exact o.root.find?_marked_eq_none o.isOpen id h (.inr (by omega))

/-- Putting a mark into the tree is setting the bit. -/
theorem marked_of_set (h : o.root.Numbered 0) {id : Nat} (hid : id < o.bits.length) {v : Bool}
    (hp : Folds o p (o.bits.set id v)) :
    p.marked = o.root.marked (Function.update o.isOpen id v) := by
  refine marked_of_folds h hp fun i hi => ?_
  by_cases hne : i = id
  · rw [hne, List.getElem?_set_self hid, Function.update_self, Option.getD_some]
  · rw [List.getElem?_set_ne (Ne.symm hne), Function.update_of_ne hne, isOpen_eq_bits]

theorem marked_setAll (h : o.root.Numbered 0) (v : Bool) :
    (o.setAll v).marked = o.marked.setAll v := by
  have hfolds : Folds o (o.setAll v) (o.bits.map fun _ => v) := ⟨⟨rfl, rfl⟩, bits_setAll o v⟩
  have hmarked : o.marked.setAll v = o.root.marked fun _ => v := o.root.setAll_marked o.isOpen v
  rw [hmarked]
  refine marked_of_folds h hfolds fun id hid => ?_
  rw [List.getElem?_map, List.getElem?_eq_getElem hid]
  rfl

theorem marked_clickHeader (h : o.root.Numbered 0) :
    o.clickHeader.marked = o.marked.clickHeader := by
  have hfolds := fold_clickHeader h
  by_cases hvisible : o.headerVisible = true
  · have hbit := (headerVisible_iff h).mp hvisible
    have hpos : 0 < o.bits.length := (List.getElem?_eq_some_iff.mp hbit.2).1
    rw [Fold.onBits, if_pos hbit] at hfolds
    rw [marked_of_set h hpos hfolds]
    unfold marked headerVisible at *
    cases hroot : o.root with
    | call id f preview rows =>
      rw [hroot] at h hvisible
      have hzero : id = 0 := h.1
      have hclosed : o.isOpen id = false := by simpa using hvisible
      -- The call at the root has the number 0, and no call in it has.
      have hrows := rows.marked_congr h.2 (.update_of_lt o.isOpen Nat.zero_lt_one true)
      rw [Block.marked, Block.marked, ← hrows, hclosed, hzero, Function.update_self]
      rfl
    | line _ | paren _ | binary _ _ _ =>
      rw [hroot] at hvisible
      exact absurd hvisible (by simp)
  · have hbit := mt (headerVisible_iff h).mpr hvisible
    rw [Fold.onBits, if_neg hbit] at hfolds
    have hsame : o.clickHeader.marked = o.marked :=
      marked_of_folds h hfolds fun id _ => (isOpen_eq_bits o id).symm
    rw [hsame]
    unfold marked headerVisible at *
    cases hroot : o.root with
    | call id f preview rows =>
      rw [hroot] at hvisible
      have hopen : o.isOpen id = true := by simpa using hvisible
      rw [Block.marked, hopen]
      rfl
    | line _ | paren _ | binary _ _ _ => rfl

/-- One fold of the marked tree is one fold of the outline. -/
theorem fold_marked (h : o.root.Numbered 0) (f : Fold) :
    o.marked.fold f = ((o.fold f).1, (o.fold f).2.marked) := by
  have ⟨hanswer, hfolds⟩ := fold_eq_onBits h f
  rw [hanswer]
  cases f with
  | toggle id =>
    by_cases hid : id < o.bits.length
    · have hbit : o.bits[id]? = some o.bits[id] := List.getElem?_eq_getElem hid
      have hmark : o.isOpen id = o.bits[id] := by
        rw [isOpen_eq_bits, hbit]
        rfl
      rw [Fold.onBits, hbit] at hfolds ⊢
      rw [MarkedBlock.fold, find?_marked_of_lt h hid, marked_of_set h hid hfolds, hmark]
    · have hge : o.bits.length ≤ id := by omega
      have hfold : o.fold (.toggle id) = (.toggled none, o) := by
        rw [fold, toggle?, setOpen?_of_ge hge]
      rw [MarkedBlock.fold, find?_marked_of_ge h hge, Fold.onBits, List.getElem?_eq_none hge, hfold]
  | setOpen id v =>
    by_cases hid : id < o.bits.length
    · rw [MarkedBlock.fold, find?_marked_of_lt h hid, marked_of_set h hid hfolds, Fold.onBits,
        decide_eq_true hid]
    · have hge : o.bits.length ≤ id := by omega
      have hfold : o.fold (.setOpen id v) = (.found false, o) := by
        rw [fold, setOpen?_of_ge hge]
      rw [MarkedBlock.fold, find?_marked_of_ge h hge, Fold.onBits, decide_eq_false hid, hfold]
  | collapseAll => exact congrArg (FoldAnswer.done, ·) (marked_setAll h false).symm
  | expandAll => exact congrArg (FoldAnswer.done, ·) (marked_setAll h true).symm
  | clickHeader => exact congrArg (FoldAnswer.done, ·) (marked_clickHeader h).symm

theorem run_fold_marked (h : o.root.Numbered 0) (folds : List Fold) :
    Fold.run MarkedBlock.fold o.marked folds =
      ((Fold.run fold o folds).1, (o.after folds).marked) := by
  have hstep : ∀ p f, SameBlocks o p → p.marked.fold f = ((p.fold f).1, (p.fold f).2.marked) := by
    intro p f hp
    apply fold_marked
    rw [hp.root_eq]
    exact h
  exact (Fold.run_view marked (SameBlocks o) (fun p f hp => hp.fold h f) hstep o folds ⟨rfl, rfl⟩).2

end Outline

/-! ## The outline of an expression -/

/-- Whether an expression is a call as a whole. -/
def Expr.isCall : Expr → Bool
  | call _ _ => true
  | _ => false

namespace Outline

/-- The outline of a formula is that of its expression. -/
theorem exists_ofSource {settings : Settings} {source : String} {o : Outline}
    (h : ofSource settings source = .ok o) :
    ∃ e, Formula.parse source = .ok e ∧ o = ofExpr settings (Text.trim source) e :=
  exists_of_map_eq_ok h

variable (settings : Settings) (header : String) (e : Expr) (folds : List Fold)

theorem numbered_ofExpr : (ofExpr settings header e).root.Numbered 0 :=
  Block.numbered_ofExpr settings.label 0 e

theorem bits_ofExpr : (ofExpr settings header e).bits = List.replicate e.blockCount true := by
  have hcount := Block.callCount_ofExpr settings.label 0 e
  show (Array.replicate (Block.ofExpr settings.label 0 e).callCount true).toList = _
  rw [Array.toList_replicate, hcount]

/-- An outline is made with every call open. -/
theorem isOpen_ofExpr : (ofExpr settings header e).isOpen = fun _ => true := by
  funext id
  rw [isOpen_eq_bits, bits_ofExpr, List.getElem?_replicate]
  split <;> rfl

theorem rootIsCall_ofExpr : (ofExpr settings header e).rootIsCall = e.isCall := by
  cases e <;> rfl

theorem calls_of_root_eq {o : Outline} (h : o.root = (ofExpr settings header e).root) :
    o.calls = (e.listing 0).zipIdx.map (CallInfo.ofEntry o.isOpen) := by
  unfold calls
  rw [h]
  exact Block.calls_ofExpr settings.label o.isOpen 0 0 e

theorem map_id_calls {o : Outline} (h : o.root = (ofExpr settings header e).root) :
    o.calls.map CallInfo.id = List.range e.blockCount := by
  rw [calls_of_root_eq settings header e h, List.map_map, ← Expr.length_listing 0 e,
    List.range_eq_range']
  exact List.zipIdx_map_snd 0 _

/-- The calls as they were made, with the bits for marks. -/
theorem calls_eq_zipWith {o : Outline} (h : o.root = (ofExpr settings header e).root) :
    o.calls =
      List.zipWith (fun c b => { c with isOpen := b }) (ofExpr settings header e).calls o.bits := by
  have hbits : o.bits.length = e.blockCount := by
    rw [length_bits, h]
    exact Block.callCount_ofExpr settings.label 0 e
  rw [calls_of_root_eq settings header e h, calls_of_root_eq settings header e rfl]
  apply List.ext_getElem
  · simp [hbits, Expr.length_listing]
  · intro i hi hi'
    have hlt : i < o.bits.length := by
      rw [List.length_zipWith] at hi'
      omega
    have hopen : o.isOpen i = o.bits[i] := by
      rw [isOpen_eq_bits, List.getElem?_eq_getElem hlt]
      rfl
    simp [CallInfo.ofEntry, hopen]

theorem run_fold_ofExpr :
    Fold.run (Fold.onBits e.isCall) (List.replicate e.blockCount true) folds =
      ((Fold.run fold (ofExpr settings header e) folds).1,
        ((ofExpr settings header e).after folds).bits) := by
  have hrun := (run_fold (numbered_ofExpr settings header e) folds).2
  rwa [rootIsCall_ofExpr, bits_ofExpr] at hrun

/-- An outline is its blocks, which stay as they were made, and one bit for each call. To search
the tree of blocks for a number and to change a mark there comes to the same. -/
theorem blocks_and_bits (settings : Settings) (header : String) (e : Expr) (folds : List Fold) :
    let built := ofExpr settings header e
    let o := built.after folds
    let run := Fold.run (Fold.onBits e.isCall) (List.replicate e.blockCount true) folds
    (built.calls = (e.listing 0).zipIdx.map (CallInfo.ofEntry fun _ => true) ∧
      (e.listing 0).length = e.blockCount) ∧
    (o.header = header ∧ o.root = built.root ∧ run.2.length = e.blockCount ∧
      o.calls = List.zipWith (fun c b => { c with isOpen := b }) built.calls run.2) ∧
    (Fold.run fold built folds).1 = run.1 ∧
    (o.headerVisible = true ↔ e.isCall = true ∧ run.2[0]? = some false) ∧
    Fold.run MarkedBlock.fold built.marked folds = (run.1, o.marked) ∧
    o.marked.calls 0 = o.calls ∧ o.marked.headerVisible = o.headerVisible := by
  intro built o run
  have hnumbered : built.root.Numbered 0 := numbered_ofExpr settings header e
  have hrun : run = ((Fold.run fold built folds).1, o.bits) := run_fold_ofExpr settings header e folds
  have hroot : o.root = built.root := root_after hnumbered folds
  have hcalls : o.calls = List.zipWith (fun c b => { c with isOpen := b }) built.calls o.bits :=
    calls_eq_zipWith settings header e hroot
  have hvisible : o.headerVisible = true ↔ e.isCall = true ∧ o.bits[0]? = some false := by
    rw [← rootIsCall_ofExpr settings header e, ← rootIsCall_eq hroot]
    apply headerVisible_iff
    rw [hroot]
    exact hnumbered
  rw [hrun]
  refine ⟨⟨?_, e.length_listing 0⟩, ⟨header_after hnumbered folds, hroot, ?_, hcalls⟩, rfl, hvisible,
    run_fold_marked hnumbered folds, calls_marked o, headerVisible_marked o⟩
  · rw [calls_of_root_eq settings header e rfl]
    rw [← isOpen_ofExpr settings header e]
  · rw [length_bits, hroot]
    exact Block.callCount_ofExpr settings.label 0 e

end Outline

end FormulaTree
