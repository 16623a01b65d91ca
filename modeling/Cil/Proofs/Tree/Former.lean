import Cil.Proofs.Tree.Place

/-!
# Former selves

An expression that is recorded as a former self of another keeps its own ranges, and those of its
former selves, in every tree with that other one. What its arguments covered is not kept with it:
former selves are history, and their arguments no part of the tree. Main statements:
`Subtree.spans_recorded_iff` says exactly when such a tree still reaches over the span of the
expression, and `Subtree.not_forall_recorded_spanned` that it need not.
-/

namespace Cil

namespace Part

variable {α β : Type} [Part α] [Part β] {part : α} {other : β}

/-- The span of a part reaches over that of another: where the other has a first offset, the part
has one at or before it, and its last offset is at or behind that of the other. -/
def Spans (part : α) (other : β) : Prop :=
  ∀ first, firstOffset other = .ok first →
    (∃ offset, firstOffset part = .ok offset ∧ offset ≤ first) ∧
      lastOffset other ≤ lastOffset part

/-- A span reaches over another exactly where it does so for each range. -/
theorem spans_iff :
    Spans part other ↔ ∀ r ∈ ranges other,
      (∃ q ∈ ranges part, q.first ≤ r.first) ∧ ∃ q ∈ ranges part, r.last ≤ q.last := by
  constructor
  · intro h r hr
    have hne : ranges other ≠ [] := List.ne_nil_of_mem hr
    obtain ⟨first, hf⟩ := exists_firstOffset hne
    obtain ⟨⟨offset, hp, -⟩, hlast⟩ := h first hf
    have hpne : ranges part ≠ [] := by
      intro hn
      simp [firstOffset_eq_error_iff.mpr ⟨rfl, hn⟩] at hp
    exact ⟨firstOffset_le_iff.mp (fun o ho ↦ (h o ho).1) r hr,
      (lastOffset_le_iff hpne hne).mp hlast r hr⟩
  · intro h first hf
    obtain ⟨r, hr, -⟩ := (firstOffset_eq_ok_iff.mp hf).1
    obtain ⟨⟨q, hq, -⟩, -⟩ := h r hr
    constructor
    · exact firstOffset_le_iff.mpr (fun r hr ↦ (h r hr).1) first hf
    · exact (lastOffset_le_iff (List.ne_nil_of_mem hq) (List.ne_nil_of_mem hr)).mpr
        fun r hr ↦ (h r hr).2

/-- A part that has the ranges of another reaches over it. -/
theorem spans_of_subset (h : ranges other ⊆ ranges part) : Spans part other :=
  spans_iff.mpr fun r hr ↦ ⟨⟨r, h hr, Int32.le_refl _⟩, r, h hr, Int32.le_refl _⟩

end Part

namespace Expr

/-- The expression is among the former selves of another, or of a former self of that, and so
on. -/
def Recorded (old e : Expr) : Prop := Relation.TransGen (fun old e ↦ old ∈ e.former) old e

/-- A recorded expression keeps its ranges and those of its former selves. -/
theorem Recorded.allRanges_subset {old e : Expr} (h : old.Recorded e) :
    old.allRanges ⊆ e.allRanges := by
  have hstep {x y : Expr} (hxy : x ∈ y.former) : x.allRanges ⊆ y.allRanges := by
    intro r hr
    rw [allRanges_eq y, List.mem_append, List.mem_flatMap]
    exact .inr ⟨x, hxy, hr⟩
  induction h with
  | single hx => exact hstep hx
  | tail _ hx ih => exact List.Subset.trans ih (hstep hx)

/-- An expression covers its own ranges, those of its former selves, and what its arguments
cover. -/
theorem ranges_eq (e : Expr) :
    Part.ranges e = e.allRanges ++ e.args.flatMap Part.ranges := by
  calc e.exprs.flatMap allRanges
    _ = (e :: e.args.flatMap exprs).flatMap allRanges := by rw [← exprs_eq]
    _ = _ := by rw [List.flatMap_cons, List.flatMap_assoc]; rfl

end Expr

namespace Subtree

/-- The expression is one of the subtree: a path leads down to it. -/
def Contains (t : Subtree) (e : Expr) : Prop := ∃ path, follow children t path = some (.expr e)

private theorem Contains.ranges_subset {t : Subtree} {e : Expr} (h : t.Contains e) :
    Part.ranges e ⊆ Part.ranges t := by
  obtain ⟨path, hp⟩ := h
  exact (sublist_of_follow ranges_eq hp).subset

/-- A tree with an expression that has another recorded reaches over the span of that other one
exactly where it reaches over those of its arguments; so it does where these are still in the
tree. -/
theorem spans_recorded_iff {t : Subtree} {old e : Expr} (hr : old.Recorded e)
    (he : t.Contains e) :
    (Part.Spans t old ↔ ∀ a ∈ old.args, Part.Spans t a) ∧
      ((∀ a ∈ old.args, t.Contains a) → Part.Spans t old) := by
  have hkept : old.allRanges ⊆ Part.ranges t := by
    intro r hro
    apply he.ranges_subset
    rw [Expr.ranges_eq]
    exact List.mem_append_left _ (hr.allRanges_subset hro)
  have hiff : Part.Spans t old ↔ ∀ a ∈ old.args, Part.Spans t a := by
    simp only [Part.spans_iff, Expr.ranges_eq old, List.mem_append, List.mem_flatMap]
    constructor
    · intro h a ha r hra
      exact h r (.inr ⟨a, ha, hra⟩)
    · rintro h r (hro | ⟨a, ha, hra⟩)
      · exact ⟨⟨r, hkept hro, Int32.le_refl _⟩, r, hkept hro, Int32.le_refl _⟩
      · exact h a ha r hra
  refine ⟨hiff, fun h ↦ hiff.mpr fun a ha ↦ ?_⟩
  exact Part.spans_of_subset (h a ha).ranges_subset

/-- A call that was rewritten twice and lost its argument on the way: the span still reaches over
that, once by other ranges and once as the argument is now a statement. -/
theorem spans_recorded_lost_argument :
    let argument : Expr := { Expr.ofOperation .ldloc with ranges := [⟨5, 9⟩] }
    let call : Expr := { Expr.ofOperation .call with args := [argument], ranges := [⟨10, 14⟩] }
    let virtual : Expr := { Expr.ofOperation .callvirt with former := [call] }
    let await : Expr := { virtual.replacing (Expr.ofOperation .await) with ranges := [⟨2, 3⟩] }
    let t : Subtree := .block [.loop (some await) []]
    let moved : Subtree := .block [.expr argument, .loop (some await) []]
    call.Recorded await ∧ t.Contains await ∧ Part.Spans t call ∧
      moved.Contains await ∧ (∀ a ∈ call.args, moved.Contains a) ∧ Part.Spans moved call := by
  intro argument call virtual await t moved
  have hr : call.Recorded await := .tail (.single (by decide)) (by decide : virtual ∈ await.former)
  have ht : t.Contains await := ⟨[0, 0], rfl⟩
  have hm : moved.Contains await := ⟨[1, 0], rfl⟩
  have ha : ∀ a ∈ call.args, moved.Contains a := by
    intro a ha
    obtain rfl : a = argument := List.mem_singleton.mp ha
    exact ⟨[0, 0], rfl⟩
  refine ⟨hr, ht, (spans_recorded_iff hr ht).1.mpr fun a ha ↦ ?_, hm, ha,
    (spans_recorded_iff hr hm).2 ha⟩
  obtain rfl : a = argument := List.mem_singleton.mp ha
  exact Part.spans_iff.mpr (by decide)

/-- A recorded expression does not always keep its span: that of an argument can be lost. -/
theorem not_forall_recorded_spanned :
    ¬ ∀ (t : Subtree) (old e : Expr), old.Recorded e → t.Contains e → Part.Spans t old := by
  intro h
  let argument : Expr := { Expr.ofOperation .ldloc with ranges := [⟨5, 9⟩] }
  let call : Expr := { Expr.ofOperation .call with args := [argument] }
  let await := call.replacing { Expr.ofOperation .await with ranges := [⟨10, 12⟩] }
  have hs : Part.Spans (Subtree.expr await) call :=
    h (.expr await) call await (.single (by decide)) ⟨[], rfl⟩
  obtain ⟨⟨offset, ho, hle⟩, -⟩ := hs 5 rfl
  have h10 : Part.firstOffset (Subtree.expr await) = .ok 10 := rfl
  obtain rfl : 10 = offset := by simpa [h10] using ho
  exact absurd hle (by decide)

end Subtree

end Cil
