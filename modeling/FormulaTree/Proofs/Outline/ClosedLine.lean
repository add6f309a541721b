import FormulaTree.Proofs.Outline.MarkedTree
import FormulaTree.Proofs.Outline.Lines
import FormulaTree.Proofs.RoundTrip

/-!
# Closed calls as formulas

The line that stands for a closed call is a formula. It is read as the call that it stands for, with
the name of the call in upper case and with its arguments as they were read.
-/

namespace FormulaTree

/-- A call stays canonical when its name is written in upper case. -/
theorem Expr.Canonical.upperCase {f : String} {args : List Expr} (h : (call f args).Canonical) :
    (call (Text.upperCase f) args).Canonical := by
  have hspelled := h.spelled
  rw [tokens, List.forall_mem_cons] at hspelled
  refine ⟨⟨h.fits, h.nesting_le, h.operatorCount_le⟩, ?_⟩
  rw [tokens, List.forall_mem_cons]
  exact ⟨Token.spelled_upperCase hspelled.1, hspelled.2⟩

/-! ## The calls of an expression -/

namespace Expr

mutual

/-- The calls that stand below no sign, each one before those in its arguments: the name as written,
and the arguments. -/
def calls : Expr → List (String × List Expr)
  | number _ | string _ | name _ | unary _ _ => []
  | binary left _ right => left.calls ++ right.calls
  | paren inner => inner.calls
  | call f args => (f, args) :: callsAll args

def callsAll : List Expr → List (String × List Expr)
  | [] => []
  | e :: es => e.calls ++ callsAll es

end

mutual

theorem length_calls : (e : Expr) → e.calls.length = e.blockCount
  | number _ | string _ | name _ | unary _ _ => rfl
  | binary left _ right => by
    rw [calls, blockCount, List.length_append, left.length_calls, right.length_calls]
  | paren inner => inner.length_calls
  | call f args => by
    rw [calls, blockCount, List.length_cons, length_callsAll]

theorem length_callsAll : (es : List Expr) → (callsAll es).length = blockCountAll es
  | [] => rfl
  | e :: es => by
    rw [callsAll, blockCountAll, List.length_append, e.length_calls, length_callsAll]

end

mutual

theorem canonical_of_mem_calls {f : String} {args : List Expr} :
    (e : Expr) → e.Canonical → (f, args) ∈ e.calls → (call f args).Canonical
  | number _, _, hmem | string _, _, hmem | name _, _, hmem | unary _ _, _, hmem =>
    absurd hmem List.not_mem_nil
  | binary left _ right, h, hmem => by
    rw [calls, List.mem_append] at hmem
    rcases hmem with hmem | hmem
    · exact canonical_of_mem_calls left h.left hmem
    · exact canonical_of_mem_calls right h.right hmem
  | paren inner, h, hmem => canonical_of_mem_calls inner h.paren hmem
  | call g es, h, hmem => by
    rw [calls, List.mem_cons] at hmem
    rcases hmem with heq | hmem
    · cases heq
      exact h
    · exact canonical_of_mem_callsAll es h.args hmem

theorem canonical_of_mem_callsAll {f : String} {args : List Expr} :
    (es : List Expr) → (∀ e ∈ es, e.Canonical) → (f, args) ∈ callsAll es →
      (call f args).Canonical
  | [], _, hmem => absurd hmem List.not_mem_nil
  | e :: es, h, hmem => by
    rw [List.forall_mem_cons] at h
    rw [callsAll, List.mem_append] at hmem
    rcases hmem with hmem | hmem
    · exact canonical_of_mem_calls e h.1 hmem
    · exact canonical_of_mem_callsAll es h.2 hmem

end

end Expr

/-! ## The calls of a block when they are closed -/

/-- What is shown of a closed call, and the number of the call. -/
structure ClosedCall where
  id : Nat
  function : String
  preview : String
deriving DecidableEq

/-- What is shown of the call `id` when it is closed. -/
def ClosedCall.ofEntry (entry : (String × List Expr) × Nat) : ClosedCall :=
  ⟨entry.2, Text.upperCase entry.1.1, Expr.argumentsLine entry.1.2⟩

mutual

/-- The calls of a block, each one before those in its arguments, as they are shown when they are
closed. -/
def Block.closedCalls : Block → List ClosedCall
  | .line _ => []
  | .paren inner => inner.closedCalls
  | .binary left _ right => left.closedCalls ++ right.closedCalls
  | .call id function preview rows => ⟨id, function, preview⟩ :: rows.closedCalls

def Rows.closedCalls : Rows → List ClosedCall
  | .nil => []
  | .cons _ value rest => value.closedCalls ++ rest.closedCalls

end

variable (label : String → Nat → String)

mutual

theorem Block.closedCalls_ofExpr (first : Nat) : (e : Expr) →
    (Block.ofExpr label first e).closedCalls = (e.calls.zipIdx first).map ClosedCall.ofEntry
  | .number _ | .string _ | .name _ | .unary _ _ => rfl
  | .binary left _ right => by
    rw [Block.ofExpr, Block.closedCalls, Expr.calls, List.zipIdx_append, List.map_append,
      Expr.length_calls, Block.closedCalls_ofExpr first left, Block.closedCalls_ofExpr _ right]
  | .paren inner => Block.closedCalls_ofExpr first inner
  | .call f args => by
    rw [Block.ofExpr, Block.closedCalls, Expr.calls, List.zipIdx_cons, List.map_cons,
      Rows.closedCalls_ofArgs]
    rfl

theorem Rows.closedCalls_ofArgs (function : String) (index first : Nat) : (es : List Expr) →
    (Rows.ofArgs label function index first es).closedCalls =
      ((Expr.callsAll es).zipIdx first).map ClosedCall.ofEntry
  | [] => rfl
  | e :: es => by
    rw [Rows.ofArgs, Rows.closedCalls, Expr.callsAll, List.zipIdx_append, List.map_append,
      Expr.length_calls, Block.closedCalls_ofExpr first e, Rows.closedCalls_ofArgs]

end

mutual

/-- The closed calls of a block are the calls that are listed of it. -/
theorem Block.map_closedCalls (isOpen : Nat → Bool) (depth : Nat) : (b : Block) →
    b.closedCalls.map (fun c => (c.id, c.function)) =
      (b.calls isOpen depth).map fun c => (c.id, c.function)
  | .line _ => rfl
  | .paren inner => Block.map_closedCalls isOpen depth inner
  | .binary left _ right => by
    rw [Block.closedCalls, Block.calls, List.map_append, List.map_append,
      Block.map_closedCalls isOpen depth left, Block.map_closedCalls isOpen depth right]
  | .call _ _ _ rows => by
    rw [Block.closedCalls, Block.calls, List.map_cons, List.map_cons,
      Rows.map_closedCalls isOpen (depth + 1) rows]

theorem Rows.map_closedCalls (isOpen : Nat → Bool) (depth : Nat) : (rs : Rows) →
    rs.closedCalls.map (fun c => (c.id, c.function)) =
      (rs.calls isOpen depth).map fun c => (c.id, c.function)
  | .nil => rfl
  | .cons _ value rest => by
    rw [Rows.closedCalls, Rows.calls, List.map_append, List.map_append,
      Block.map_closedCalls isOpen depth value, Rows.map_closedCalls isOpen depth rest]

end

/-- The line of a closed call is read as the call, with its name in upper case. -/
theorem Formula.parse_closedLine {f : String} {args : List Expr}
    (h : (Expr.call f args).Canonical) :
    Formula.parse (Text.upperCase f ++ Expr.argumentsLine args) =
      .ok (.call (Text.upperCase f) args) := by
  rw [← Expr.oneLine_call]
  exact Formula.parse_oneLine h.upperCase

namespace Outline

/-- The calls of an outline are those of the formula that stand below no sign, in their order. The
line that is shown of one when it is closed is a formula, and is read as this call with its name in
upper case. -/
theorem closed_line_read_back {settings : Settings} {source : String} {o : Outline}
    (h : ofSource settings source = .ok o) :
    ∃ e, Formula.parse source = .ok e ∧
      o.root.closedCalls.map (fun c => (c.id, c.function)) =
        o.calls.map (fun c => (c.id, c.function)) ∧
      o.root.closedCalls.map ClosedCall.id = List.range e.calls.length ∧
      ∀ c ∈ o.root.closedCalls, ∃ f args, e.calls[c.id]? = some (f, args) ∧
        Formula.parse (c.function ++ c.preview) = .ok (.call (Text.upperCase f) args) := by
  obtain ⟨e, hparse, rfl⟩ := exists_ofSource h
  have hcanonical := Formula.canonical_of_parse hparse
  have hclosed : (ofExpr settings (Text.trim source) e).root.closedCalls =
      e.calls.zipIdx.map ClosedCall.ofEntry := Block.closedCalls_ofExpr settings.label 0 e
  refine ⟨e, hparse, Block.map_closedCalls _ 0 _, ?_, fun c hc => ?_⟩
  · rw [hclosed, List.map_map, List.range_eq_range']
    exact List.zipIdx_map_snd 0 _
  · rw [hclosed] at hc
    obtain ⟨⟨⟨f, args⟩, id⟩, hentry, rfl⟩ := List.mem_map.mp hc
    have hcall : e.calls[id]? = some (f, args) := List.mem_zipIdx_iff_getElem?.mp hentry
    have hmem : (f, args) ∈ e.calls := List.mem_of_getElem? hcall
    exact ⟨f, args, hcall, Formula.parse_closedLine (e.canonical_of_mem_calls hcanonical hmem)⟩

/-- The call below the sign is none of the outline, and a string holds what looks like one. -/
theorem closed_line_read_back_of_nested :
    let source := "=-f(1)+if(a1>0,(sum(b1:b3,\"g(\")),-abs(2))"
    let preview := "(b1 : b3, \"g(\")"
    ∃ o, ofSource {} source = .ok o ∧ ⟨1, "SUM", preview⟩ ∈ o.root.closedCalls ∧
      Formula.parse ("SUM" ++ preview) =
        .ok (.call "SUM" [.binary (.name "b1") .range (.name "b3"), .string "g("]) := by
  intro source preview
  let e : Expr :=
    .binary (.unary .minus (.call "f" [.number "1"])) .add
      (.call "if" [.binary (.name "a1") .gt (.number "0"),
        .paren (.call "sum" [.binary (.name "b1") .range (.name "b3"), .string "g("]),
        .unary .minus (.call "abs" [.number "2"])])
  have hparse : Formula.parse source = .ok e := by cbv
  have hsource : ofSource {} source = .ok (ofExpr {} (Text.trim source) e) :=
    ofSource_of_parse_ok hparse _
  have hmem : ⟨1, "SUM", preview⟩ ∈ (ofExpr {} (Text.trim source) e).root.closedCalls := by decide
  obtain ⟨d, hd, -, -, hlines⟩ := closed_line_read_back hsource
  obtain rfl : e = d := Except.ok.inj (hparse.symm.trans hd)
  obtain ⟨f, args, hcall, hline⟩ := hlines _ hmem
  obtain ⟨rfl, rfl⟩ := Prod.mk.inj (Option.some.inj hcall)
  exact ⟨_, hsource, hmem, hline⟩

end Outline

end FormulaTree
