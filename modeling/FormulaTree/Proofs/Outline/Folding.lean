import FormulaTree.Proofs.Outline.Numbering

/-!
# Opening and closing calls

What is done to an outline is told by one bit for each call: the blocks, their numbers and the
formula above them stay as they were made.
-/

namespace FormulaTree

/-- What can be done to the calls of an outline. -/
inductive Fold where
  | toggle (id : Nat)
  | setOpen (id : Nat) (isOpen : Bool)
  | collapseAll
  | expandAll
  | clickHeader
deriving DecidableEq, Repr

/-- What is answered to it. -/
inductive FoldAnswer where
  /-- Whether the call is open now, if there is one. -/
  | toggled (isOpen? : Option Bool)
  /-- Whether there is such a call. -/
  | found (exists? : Bool)
  | done
deriving DecidableEq, Repr

/-- The answers to some folds in a row, and what is left after them. -/
def Fold.run {σ : Type} (step : σ → Fold → FoldAnswer × σ) (s : σ) : List Fold → List FoldAnswer × σ
  | [] => ([], s)
  | f :: fs =>
    let rest := Fold.run step (step s f).2 fs
    ((step s f).1 :: rest.1, rest.2)

/-- Two systems that answer alike step by step, as long as `Inv` holds of the first, answer alike
in the long run. -/
theorem Fold.run_view {σ τ : Type} {step : σ → Fold → FoldAnswer × σ}
    {step' : τ → Fold → FoldAnswer × τ} (view : σ → τ) (Inv : σ → Prop)
    (hinv : ∀ s f, Inv s → Inv (step s f).2)
    (hview : ∀ s f, Inv s → step' (view s) f = ((step s f).1, view (step s f).2)) :
    ∀ (s : σ) (fs : List Fold), Inv s →
      Inv (Fold.run step s fs).2 ∧
        Fold.run step' (view s) fs = ((Fold.run step s fs).1, view (Fold.run step s fs).2) := by
  intro s fs
  induction fs generalizing s with
  | nil => exact fun hs => ⟨hs, rfl⟩
  | cons f fs ih =>
    intro hs
    have hnext := hinv s f hs
    have ⟨hrest, hanswers⟩ := ih (step s f).2 hnext
    refine ⟨hrest, ?_⟩
    rw [Fold.run, Fold.run, hview s f hs]
    show (_ :: (Fold.run step' (view (step s f).2) fs).1, _) = _
    rw [hanswers]

/-! ## One bit for each call -/

/-- One fold of a row of bits. Only a click on the header asks whether the root is a call. -/
def Fold.onBits (rootIsCall : Bool) (bits : List Bool) : Fold → FoldAnswer × List Bool
  | .toggle id =>
    match bits[id]? with
    | some b => (.toggled (some !b), bits.set id !b)
    | none => (.toggled none, bits)
  | .setOpen id b => (.found (id < bits.length), bits.set id b)
  | .collapseAll => (.done, bits.map fun _ => false)
  | .expandAll => (.done, bits.map fun _ => true)
  | .clickHeader => (.done, if rootIsCall ∧ bits[0]? = some false then bits.set 0 true else bits)

namespace Outline

/-- One fold of an outline. -/
def fold (o : Outline) : Fold → FoldAnswer × Outline
  | .toggle id =>
    match o.toggle? id with
    | some p => (.toggled (some (p.isOpen id)), p)
    | none => (.toggled none, o)
  | .setOpen id b =>
    match o.setOpen? id b with
    | some p => (.found true, p)
    | none => (.found false, o)
  | .collapseAll => (.done, o.collapseAll)
  | .expandAll => (.done, o.expandAll)
  | .clickHeader => (.done, o.clickHeader)

/-- An outline after some folds in a row. -/
def after (o : Outline) (folds : List Fold) : Outline :=
  (Fold.run fold o folds).2

/-- The marks as a row of bits. -/
def bits (o : Outline) : List Bool :=
  o.marks.toList

/-- Whether the root is a call. -/
def rootIsCall (o : Outline) : Bool :=
  match o.root with
  | .call _ _ _ _ => true
  | _ => false

variable {o p : Outline} {id : Nat}

theorem isOpen_eq_bits (o : Outline) (id : Nat) : o.isOpen id = o.bits[id]?.getD true := by
  rw [isOpen, bits, Array.getElem?_toList]

theorem length_bits (o : Outline) : o.bits.length = o.root.callCount := by
  rw [bits, Array.length_toList, o.size_marks]

theorem eq_of_bits_eq (hheader : o.header = p.header) (hroot : o.root = p.root)
    (hbits : o.bits = p.bits) : o = p := by
  have hmarks : o.marks = p.marks := Array.toList_inj.mp hbits
  cases o
  cases p
  simp_all

/-- Whether nothing but marks differs. -/
structure SameBlocks (o p : Outline) : Prop where
  header_eq : p.header = o.header
  root_eq : p.root = o.root

/-- Whether `p` is `o` with the marks `bits`. -/
structure Folds (o p : Outline) (bits : List Bool) : Prop extends SameBlocks o p where
  bits_eq : p.bits = bits

theorem setOpen?_of_lt (h : id < o.bits.length) (b : Bool) :
    ∃ p, o.setOpen? id b = some p ∧ Folds o p (o.bits.set id b) := by
  have hsize : id < o.marks.size := by simpa [bits] using h
  unfold setOpen?
  rw [if_pos hsize]
  refine ⟨_, rfl, ⟨rfl, rfl⟩, ?_⟩
  simp only [bits, Array.toList_setIfInBounds]

theorem setOpen?_of_ge (h : o.bits.length ≤ id) (b : Bool) : o.setOpen? id b = none := by
  have hsize : ¬id < o.marks.size := by simpa [bits] using h
  unfold setOpen?
  rw [if_neg hsize]

theorem bits_setAll (o : Outline) (b : Bool) : (o.setAll b).bits = o.bits.map fun _ => b := by
  show (Array.replicate o.root.callCount b).toList = _
  rw [Array.toList_replicate, List.map_const', o.length_bits]

theorem fold_toggle (o : Outline) (id : Nat) :
    (o.fold (.toggle id)).1 = (Fold.onBits o.rootIsCall o.bits (.toggle id)).1 ∧
      Folds o (o.fold (.toggle id)).2 (Fold.onBits o.rootIsCall o.bits (.toggle id)).2 := by
  by_cases hid : id < o.bits.length
  · have hbit : o.bits[id]? = some o.bits[id] := List.getElem?_eq_getElem hid
    have hmark : o.isOpen id = o.bits[id] := by
      rw [isOpen_eq_bits, hbit]
      rfl
    obtain ⟨p, hp, hfolds⟩ := setOpen?_of_lt hid (!o.isOpen id)
    have hopen : p.isOpen id = !o.bits[id] := by
      rw [isOpen_eq_bits, hfolds.bits_eq, List.getElem?_set_self hid, hmark]
      rfl
    have hfold : o.fold (.toggle id) = (.toggled (some !o.bits[id]), p) := by
      rw [fold, toggle?, hp, ← hopen]
    rw [hfold, Fold.onBits, hbit]
    rw [hmark] at hfolds
    exact ⟨rfl, hfolds⟩
  · have hge : o.bits.length ≤ id := by omega
    rw [fold, toggle?, setOpen?_of_ge hge, Fold.onBits, List.getElem?_eq_none hge]
    exact ⟨rfl, ⟨rfl, rfl⟩, rfl⟩

theorem fold_setOpen (o : Outline) (id : Nat) (b : Bool) :
    (o.fold (.setOpen id b)).1 = (Fold.onBits o.rootIsCall o.bits (.setOpen id b)).1 ∧
      Folds o (o.fold (.setOpen id b)).2 (Fold.onBits o.rootIsCall o.bits (.setOpen id b)).2 := by
  by_cases hid : id < o.bits.length
  · obtain ⟨p, hp, hfolds⟩ := setOpen?_of_lt hid b
    rw [fold, hp, Fold.onBits, decide_eq_true hid]
    exact ⟨rfl, hfolds⟩
  · have hge : o.bits.length ≤ id := by omega
    rw [fold, setOpen?_of_ge hge, Fold.onBits, decide_eq_false hid, List.set_eq_of_length_le hge]
    exact ⟨rfl, ⟨rfl, rfl⟩, rfl⟩

/-- A click on the header opens the call at the root, whose number is the first. -/
theorem fold_clickHeader (h : o.root.Numbered 0) :
    Folds o o.clickHeader (Fold.onBits o.rootIsCall o.bits .clickHeader).2 := by
  cases hroot : o.root with
  | call id f preview rows =>
    rw [hroot] at h
    have hzero : id = 0 := h.1
    subst hzero
    have hcall : o.rootIsCall = true := by rw [rootIsCall, hroot]
    have hpos : 0 < o.bits.length := by
      rw [length_bits, hroot, Block.callCount]
      omega
    obtain ⟨p, hp, hfolds⟩ := setOpen?_of_lt hpos true
    have hclick : o.clickHeader = p := by
      unfold clickHeader
      rw [hroot]
      show (o.setOpen? 0 true).getD o = p
      rw [hp, Option.getD_some]
    have hbit : o.bits[0]? = some o.bits[0] := List.getElem?_eq_getElem hpos
    rw [hclick]
    refine ⟨hfolds.toSameBlocks, ?_⟩
    rw [hfolds.bits_eq, Fold.onBits, hcall, hbit]
    cases hopen : o.bits[0] with
    | false => rfl
    | true =>
      -- To open an open call changes nothing.
      have hsame := List.set_getElem_self hpos
      rw [hopen] at hsame
      rw [hsame, if_neg (by simp)]
  | line _ | paren _ | binary _ _ _ =>
    have hclick : o.clickHeader = o := by
      unfold clickHeader
      rw [hroot]
    have hcall : o.rootIsCall = false := by rw [rootIsCall, hroot]
    rw [hclick, Fold.onBits, hcall, if_neg (by simp)]
    exact ⟨⟨rfl, rfl⟩, rfl⟩

/-- A fold is told by the bits, and its answer too. -/
theorem fold_eq_onBits (h : o.root.Numbered 0) (f : Fold) :
    (o.fold f).1 = (Fold.onBits o.rootIsCall o.bits f).1 ∧
      Folds o (o.fold f).2 (Fold.onBits o.rootIsCall o.bits f).2 := by
  cases f with
  | toggle id => exact fold_toggle o id
  | setOpen id b => exact fold_setOpen o id b
  | collapseAll => exact ⟨rfl, ⟨rfl, rfl⟩, bits_setAll o false⟩
  | expandAll => exact ⟨rfl, ⟨rfl, rfl⟩, bits_setAll o true⟩
  | clickHeader => exact ⟨rfl, fold_clickHeader h⟩

/-! ## Any number of folds -/

theorem rootIsCall_eq (h : p.root = o.root) : p.rootIsCall = o.rootIsCall := by
  rw [rootIsCall, rootIsCall, h]

theorem SameBlocks.fold (hnumbered : o.root.Numbered 0) (h : SameBlocks o p) (f : Fold) :
    SameBlocks o (p.fold f).2 := by
  rw [← h.root_eq] at hnumbered
  have hfold := (fold_eq_onBits hnumbered f).2
  exact ⟨hfold.header_eq.trans h.header_eq, hfold.root_eq.trans h.root_eq⟩

theorem run_fold (h : o.root.Numbered 0) (folds : List Fold) :
    SameBlocks o (o.after folds) ∧
      Fold.run (Fold.onBits o.rootIsCall) o.bits folds =
        ((Fold.run fold o folds).1, (o.after folds).bits) := by
  refine Fold.run_view bits (SameBlocks o) (fun p f hp => hp.fold h f) ?_ o folds ⟨rfl, rfl⟩
  intro p f hp
  have hnumbered : p.root.Numbered 0 := by rw [hp.root_eq]; exact h
  have ⟨hanswer, hfold⟩ := fold_eq_onBits hnumbered f
  rw [← rootIsCall_eq hp.root_eq, hanswer, hfold.bits_eq]

theorem root_after (h : o.root.Numbered 0) (folds : List Fold) : (o.after folds).root = o.root :=
  (run_fold h folds).1.root_eq

theorem header_after (h : o.root.Numbered 0) (folds : List Fold) :
    (o.after folds).header = o.header :=
  (run_fold h folds).1.header_eq

theorem headerVisible_iff (h : o.root.Numbered 0) :
    o.headerVisible = true ↔ o.rootIsCall = true ∧ o.bits[0]? = some false := by
  unfold headerVisible rootIsCall
  cases hroot : o.root with
  | call id f preview rows =>
    rw [hroot] at h
    have hzero : id = 0 := h.1
    have hpos : 0 < o.bits.length := by
      rw [length_bits, hroot, Block.callCount]
      omega
    have hbit : o.bits[0]? = some o.bits[0] := List.getElem?_eq_getElem hpos
    show (!o.isOpen id) = true ↔ _
    rw [hzero, isOpen_eq_bits, hbit]
    simp
  | line _ | paren _ | binary _ _ _ => simp

end Outline

/-! ## Folds of one call -/

/-- The call that a fold is about, if it is about one. -/
def Fold.target? : Fold → Option Nat
  | .toggle id | .setOpen id _ => some id
  | .collapseAll | .expandAll | .clickHeader => none

/-- A fold of one call sets its bit, to what depends on that bit alone. -/
theorem Fold.exists_set {f : Fold} {id : Nat} (hf : f.target? = some id) (bits : List Bool) :
    ∃ v, ∀ rootIsCall bits', bits'[id]? = bits[id]? →
      (Fold.onBits rootIsCall bits' f).2 = bits'.set id v := by
  cases f with
  | toggle i =>
    obtain rfl : i = id := Option.some.inj hf
    cases hbit : bits[i]? with
    | some b =>
      refine ⟨!b, fun _ bits' hsame => ?_⟩
      rw [Fold.onBits, hsame]
    | none =>
      refine ⟨true, fun _ bits' hsame => ?_⟩
      have hlength := List.getElem?_eq_none_iff.mp hsame
      rw [Fold.onBits, hsame, List.set_eq_of_length_le hlength]
  | setOpen i b =>
    obtain rfl : i = id := Option.some.inj hf
    exact ⟨b, fun _ _ _ => rfl⟩
  | collapseAll | expandAll | clickHeader => exact absurd hf (by simp [Fold.target?])

namespace Outline

variable {o : Outline} {id : Nat}

theorem sameBlocks_after (h : o.root.Numbered 0) (folds : List Fold) :
    SameBlocks o (o.after folds) :=
  (run_fold h folds).1

theorem bits_fold (h : o.root.Numbered 0) (f : Fold) :
    (o.fold f).2.bits = (Fold.onBits o.rootIsCall o.bits f).2 :=
  (fold_eq_onBits h f).2.bits_eq

theorem numbered_fold (h : o.root.Numbered 0) (f : Fold) : (o.fold f).2.root.Numbered 0 := by
  rw [(fold_eq_onBits h f).2.root_eq]
  exact h

theorem isOpen_fold_of_ne (h : o.root.Numbered 0) {f : Fold} {i : Nat} (hf : f.target? = some i)
    (hne : i ≠ id) : (o.fold f).2.isOpen id = o.isOpen id := by
  obtain ⟨v, hset⟩ := Fold.exists_set hf o.bits
  rw [isOpen_eq_bits, isOpen_eq_bits, bits_fold h, hset _ _ rfl, List.getElem?_set_ne hne]

theorem isOpen_after_of_ne (h : o.root.Numbered 0) (folds : List Fold)
    (hfolds : ∀ f ∈ folds, ∃ i, f.target? = some i ∧ i ≠ id) :
    (o.after folds).isOpen id = o.isOpen id := by
  induction folds generalizing o with
  | nil => rfl
  | cons f folds ih =>
    rw [List.forall_mem_cons] at hfolds
    obtain ⟨⟨i, htarget, hne⟩, hrest⟩ := hfolds
    have hnext := ih (numbered_fold h f) hrest
    exact hnext.trans (isOpen_fold_of_ne h htarget hne)

/-- Folds of two different calls commute. -/
theorem fold_comm (h : o.root.Numbered 0) {f g : Fold} {i j : Nat} (hf : f.target? = some i)
    (hg : g.target? = some j) (hne : i ≠ j) :
    ((o.fold f).2.fold g).2 = ((o.fold g).2.fold f).2 := by
  obtain ⟨v, hv⟩ := Fold.exists_set hf o.bits
  obtain ⟨w, hw⟩ := Fold.exists_set hg o.bits
  have hblocks (f g : Fold) : SameBlocks o ((o.fold f).2.fold g).2 :=
    SameBlocks.fold h (SameBlocks.fold h ⟨rfl, rfl⟩ f) g
  have hi : (o.bits.set j w)[i]? = o.bits[i]? := List.getElem?_set_ne hne.symm
  have hj : (o.bits.set i v)[j]? = o.bits[j]? := List.getElem?_set_ne hne
  apply eq_of_bits_eq
  · rw [(hblocks f g).header_eq, (hblocks g f).header_eq]
  · rw [(hblocks f g).root_eq, (hblocks g f).root_eq]
  · rw [bits_fold (numbered_fold h f), bits_fold (numbered_fold h g), bits_fold h, bits_fold h,
      hv _ _ rfl, hw _ _ rfl, hw _ _ hj, hv _ _ hi, List.set_comm _ _ hne]

theorem after_append (o : Outline) (folds more : List Fold) :
    o.after (folds ++ more) = (o.after folds).after more := by
  induction folds generalizing o with
  | nil => rfl
  | cons f folds ih => exact ih (o.fold f).2

/-- A fold may as well come before some folds of other calls as after them. -/
theorem after_concat (h : o.root.Numbered 0) {g : Fold} (hg : g.target? = some id)
    (folds : List Fold) (hfolds : ∀ f ∈ folds, ∃ i, f.target? = some i ∧ i ≠ id) :
    o.after (folds ++ [g]) = o.after (g :: folds) := by
  induction folds generalizing o with
  | nil => rfl
  | cons f folds ih =>
    rw [List.forall_mem_cons] at hfolds
    obtain ⟨⟨i, htarget, hne⟩, hrest⟩ := hfolds
    have hnext := ih (numbered_fold h f) hrest
    show (o.fold f).2.after (folds ++ [g]) = ((o.fold g).2.fold f).2.after folds
    rw [hnext, ← fold_comm h htarget hg hne]
    rfl

theorem isOpen_toggle (h : o.root.Numbered 0) (hid : id < o.bits.length) :
    (o.after [.toggle id]).isOpen id = !o.isOpen id := by
  have hbit : o.bits[id]? = some o.bits[id] := List.getElem?_eq_getElem hid
  have hafter : (o.after [.toggle id]).bits = o.bits.set id !o.bits[id] := by
    show (o.fold (.toggle id)).2.bits = _
    rw [bits_fold h, Fold.onBits, hbit]
  rw [isOpen_eq_bits, isOpen_eq_bits, hafter, List.getElem?_set_self hid, hbit]
  rfl

end Outline

end FormulaTree
