import Cil.Proofs.Tree.Place

/-!
# Empty ranges

A range that holds no offset still has two ends, and both count for the span of a part that it is
attached to. Main statements: `Subtree.offsets_withoutEmpty_iff` says exactly where that makes no
difference, and `Subtree.not_forall_offsets_withoutEmpty` that it can make one.
-/

namespace Cil

namespace Expr

mutual

/-- The expression with the ranges that pass a test, and its arguments and former selves with
theirs. -/
def keepRanges (p : OffsetRange → Bool) : Expr → Expr
  | ⟨op, operand, args, ranges, former⟩ =>
    ⟨op, operand, keepRangesList p args, ranges.filter p, keepRangesList p former⟩

/-- Expressions with the ranges that pass a test. -/
def keepRangesList (p : OffsetRange → Bool) : List Expr → List Expr
  | [] => []
  | e :: rest => e.keepRanges p :: keepRangesList p rest

end

variable {p : OffsetRange → Bool}

private theorem keepRangesList_eq (l : List Expr) : keepRangesList p l = l.map (keepRanges p) := by
  induction l with
  | nil => rfl
  | cons e rest ih => rw [keepRangesList, ih, List.map_cons]

theorem args_keepRanges (e : Expr) : (e.keepRanges p).args = e.args.map (keepRanges p) := by
  cases e
  rw [keepRanges]
  exact keepRangesList_eq _

theorem ranges_keepRanges (e : Expr) : (e.keepRanges p).ranges = e.ranges.filter p := by
  cases e
  rw [keepRanges]

theorem former_keepRanges (e : Expr) : (e.keepRanges p).former = e.former.map (keepRanges p) := by
  cases e
  rw [keepRanges]
  exact keepRangesList_eq _

/-- Of all ranges, those that pass the test are kept. -/
theorem allRanges_keepRanges (e : Expr) : (e.keepRanges p).allRanges = e.allRanges.filter p := by
  induction e using wellFounded_former.induction with
  | h e ih =>
    rw [allRanges_eq, ranges_keepRanges, former_keepRanges, allRanges_eq, List.filter_append,
      List.filter_flatMap, List.flatMap_map]
    congr 1
    exact List.flatMap_congr ih

end Expr

mutual

/-- The statement with another expression in place of each outermost one. -/
def Node.mapExprs (f : Expr → Expr) : Node → Node
  | .block body => .block (Block.mapExprs f body)
  | .basicBlock body => .basicBlock (Block.mapExprs f body)
  | .label name => .label name
  | .expr e => .expr (f e)
  | .tryCatch body handlers finallyBody faultBody =>
    .tryCatch (Block.mapExprs f body) (Handler.mapExprsList f handlers)
      (Block.mapExprsOption f finallyBody) (Block.mapExprsOption f faultBody)
  | .loop condition body => .loop (condition.map f) (Block.mapExprs f body)
  | .branch condition thenBody elseBody =>
    .branch (f condition) (Block.mapExprs f thenBody) (Block.mapExprsOption f elseBody)
  | .switch condition arms => .switch (f condition) (Arm.mapExprsList f arms)

/-- The block with other outermost expressions. -/
def Block.mapExprs (f : Expr → Expr) : List Node → List Node
  | [] => []
  | n :: rest => n.mapExprs f :: Block.mapExprs f rest

/-- The block with other outermost expressions, if it is there. -/
def Block.mapExprsOption (f : Expr → Expr) : Option (List Node) → Option (List Node)
  | none => none
  | some body => some (Block.mapExprs f body)

/-- The handler with other outermost expressions. -/
def Handler.mapExprs (f : Expr → Expr) : Handler → Handler
  | ⟨type, boundName, body⟩ => ⟨type, boundName, Block.mapExprs f body⟩

/-- Handlers with other outermost expressions. -/
def Handler.mapExprsList (f : Expr → Expr) : List Handler → List Handler
  | [] => []
  | h :: rest => h.mapExprs f :: Handler.mapExprsList f rest

/-- The arm with other outermost expressions. -/
def Arm.mapExprs (f : Expr → Expr) : Arm → Arm
  | ⟨values, body⟩ => ⟨values, Block.mapExprs f body⟩

/-- Arms with other outermost expressions. -/
def Arm.mapExprsList (f : Expr → Expr) : List Arm → List Arm
  | [] => []
  | a :: rest => a.mapExprs f :: Arm.mapExprsList f rest

end

private theorem Block.mapExprs_eq (f : Expr → Expr) (body : Block) :
    Block.mapExprs f body = body.map (Node.mapExprs f) := by
  induction body with
  | nil => rfl
  | cons n rest ih => rw [Block.mapExprs, ih, List.map_cons]

private theorem Handler.map_body_mapExprsList (f : Expr → Expr) (hs : List Handler) :
    (Handler.mapExprsList f hs).map (·.body) = hs.map fun h ↦ Block.mapExprs f h.body := by
  induction hs with
  | nil => rfl
  | cons h rest ih =>
    cases h
    rw [Handler.mapExprsList, Handler.mapExprs, List.map_cons, ih, List.map_cons]

private theorem Arm.map_body_mapExprsList (f : Expr → Expr) (as : List Arm) :
    (Arm.mapExprsList f as).map (·.body) = as.map fun a ↦ Block.mapExprs f a.body := by
  induction as with
  | nil => rfl
  | cons a rest ih =>
    cases a
    rw [Arm.mapExprsList, Arm.mapExprs, List.map_cons, ih, List.map_cons]

namespace Subtree

/-- The subtree with the ranges that pass a test. -/
def keepRanges (p : OffsetRange → Bool) : Subtree → Subtree
  | .node n => .node (n.mapExprs (Expr.keepRanges p))
  | .block body => .block (Block.mapExprs (Expr.keepRanges p) body)
  | .expr e => .expr (e.keepRanges p)

/-- The subtree with its empty ranges deleted, wherever they are attached. -/
def withoutEmpty (t : Subtree) : Subtree := t.keepRanges fun r ↦ !r.isEmpty

variable {p : OffsetRange → Bool}

theorem expr?_keepRanges (t : Subtree) :
    (t.keepRanges p).expr? = t.expr?.map (Expr.keepRanges p) := by
  cases t <;> rfl

private theorem children_keepRanges (t : Subtree) :
    (t.keepRanges p).children = t.children.map (keepRanges p) := by
  cases t with
  | block body => simp [keepRanges, children, Block.mapExprs_eq]
  | expr e => simp [keepRanges, children, Expr.args_keepRanges]
  | node n =>
    cases n with
    | block body | basicBlock body | label name | expr e => rfl
    | tryCatch body handlers finallyBody faultBody =>
      have hh := congrArg (List.map block)
        (Handler.map_body_mapExprsList (Expr.keepRanges p) handlers)
      simp only [List.map_map, Function.comp_def] at hh
      cases finallyBody <;> cases faultBody <;>
        simp [keepRanges, children, Node.mapExprs, Block.mapExprsOption, hh]
    | loop condition body => cases condition <;> rfl
    | branch condition thenBody elseBody => cases elseBody <;> rfl
    | switch condition arms =>
      have ha := congrArg (List.map block) (Arm.map_body_mapExprsList (Expr.keepRanges p) arms)
      simp only [List.map_map, Function.comp_def] at ha
      simp [keepRanges, children, Node.mapExprs, ha]

/-- Of the ranges that a subtree covers, those that pass the test are kept. -/
theorem ranges_keepRanges (t : Subtree) :
    Part.ranges (t.keepRanges p) = (Part.ranges t).filter p := by
  induction t using wellFounded.induction with
  | h t ih =>
    rw [ranges_eq, ranges_eq t, expr?_keepRanges, children_keepRanges, List.filter_append,
      List.filter_flatMap, List.filter_flatMap, List.flatMap_map]
    congr 1
    · cases t.expr? <;> simp [Expr.allRanges_keepRanges]
    · exact List.flatMap_congr ih

private theorem mem_ranges_withoutEmpty {t : Subtree} {r : OffsetRange} :
    r ∈ Part.ranges t.withoutEmpty ↔ r ∈ Part.ranges t ∧ r.isEmpty = false := by
  simp [withoutEmpty, ranges_keepRanges]

/-- Each of its ranges has one to match it on either side of the deletion exactly where each empty
range has one that is not. -/
theorem matched_withoutEmpty_iff (t : Subtree) (rel : OffsetRange → OffsetRange → Prop)
    (hrefl : ∀ r, rel r r) :
    ((∀ r ∈ Part.ranges t.withoutEmpty, ∃ q ∈ Part.ranges t, rel r q) ∧
        ∀ r ∈ Part.ranges t, ∃ q ∈ Part.ranges t.withoutEmpty, rel r q) ↔
      ∀ r ∈ Part.ranges t, r.isEmpty = true →
        ∃ q ∈ Part.ranges t, q.isEmpty = false ∧ rel r q := by
  simp only [mem_ranges_withoutEmpty, and_assoc]
  constructor
  · intro h r hr _
    exact h.2 r hr
  · intro h
    refine ⟨fun r hr ↦ ⟨r, hr.1, hrefl r⟩, fun r hr ↦ ?_⟩
    cases he : r.isEmpty with
    | true => exact h r hr he
    | false => exact ⟨r, hr, he, hrefl r⟩

private theorem matched_iff_of_forall_isEmpty {t : Subtree} {rel : OffsetRange → OffsetRange → Prop}
    (h : ∀ r ∈ Part.ranges t, r.isEmpty = true) :
    (∀ r ∈ Part.ranges t, r.isEmpty = true →
      ∃ q ∈ Part.ranges t, q.isEmpty = false ∧ rel r q) ↔ Part.ranges t = [] := by
  constructor
  · intro hm
    refine List.eq_nil_iff_forall_not_mem.mpr fun r hr ↦ ?_
    obtain ⟨q, hq, he, -⟩ := hm r hr (h r hr)
    simp [h q hq] at he
  · intro hn
    simp [hn]

/-- Deleting its empty ranges leaves the first offset of a subtree as it is exactly where none of
these begins before all other ranges. It leaves the last offset as it is exactly where none of
them ends behind all other ranges, or where there are no others and the last of them ends where
the empty range does. -/
theorem offsets_withoutEmpty_iff (t : Subtree) :
    (Part.firstOffset t = Part.firstOffset t.withoutEmpty ↔
      ∀ r ∈ Part.ranges t, r.isEmpty = true →
        ∃ q ∈ Part.ranges t, q.isEmpty = false ∧ q.first ≤ r.first) ∧
    (Part.lastOffset t = Part.lastOffset t.withoutEmpty ↔
      (∀ r ∈ Part.ranges t, r.isEmpty = true →
        ∃ q ∈ Part.ranges t, q.isEmpty = false ∧ r.last ≤ q.last) ∨
      (∀ r ∈ Part.ranges t, r.isEmpty = true ∧ r.last ≤ -1) ∧
        ∃ r ∈ Part.ranges t, r.last = -1) := by
  constructor
  · rw [Part.firstOffset_eq_iff]
    exact t.matched_withoutEmpty_iff (fun r q ↦ q.first ≤ r.first) fun r ↦ Int32.le_refl _
  · by_cases hk : Part.ranges t.withoutEmpty = []
    · have hall : ∀ r ∈ Part.ranges t, r.isEmpty = true := by
        simpa [List.eq_nil_iff_forall_not_mem, mem_ranges_withoutEmpty] using hk
      have hle : (∀ r ∈ Part.ranges t, r.last ≤ OffsetRange.empty.last) ↔
          ∀ r ∈ Part.ranges t, r.isEmpty = true ∧ r.last ≤ -1 :=
        forall₂_congr fun r hr ↦ (and_iff_right (hall r hr)).symm
      rw [Part.lastOffset_of_nil hk, Part.lastOffset_eq_empty_iff, hle,
        matched_iff_of_forall_isEmpty hall]
      rfl
    · obtain ⟨r, hr⟩ := List.exists_mem_of_ne_nil _ hk
      rw [mem_ranges_withoutEmpty] at hr
      rw [Part.lastOffset_eq_iff (List.ne_nil_of_mem hr.1) hk,
        t.matched_withoutEmpty_iff (fun r q ↦ r.last ≤ q.last) fun r ↦ Int32.le_refl _]
      -- not all ranges are empty, so the second alternative is out
      refine (or_iff_left fun h ↦ ?_).symm
      simp [(h.1 r hr.1).1] at hr

/-- Deleting empty ranges can make a difference: next to a range that holds offsets, the empty one
alone makes 0 the first offset. -/
theorem not_forall_offsets_withoutEmpty :
    ¬ ∀ t : Subtree, Part.firstOffset t = Part.firstOffset t.withoutEmpty ∧
      Part.lastOffset t = Part.lastOffset t.withoutEmpty := by
  intro h
  have hf := (h (.expr { Expr.ofOperation .nop with ranges := [.empty, ⟨5, 9⟩] })).1
  exact absurd hf (by decide)

end Subtree

end Cil
