import Cil.Proofs.Tree.Span
import Cil.Proofs.Tree.Subtree

/-!
# Places of ranges

A range stands at a place of a subtree: at an index of an expression that a path leads to, first
down to an expression of the subtree and from there through former selves. Main statement:
`Subtree.ranges_exact`, by which the ranges a subtree covers are those at its places, each as often
as it stands at one, and the ends of its span are theirs.
-/

namespace Cil

namespace Expr

private theorem sizeOf_lt_of_mem_former {e old : Expr} (h : old ∈ e.former) :
    sizeOf old < sizeOf e := by
  have := List.sizeOf_lt_of_mem h
  cases e
  simp at this ⊢
  omega

/-- Nothing goes on for ever through former selves. -/
theorem wellFounded_former : WellFounded fun old e : Expr ↦ old ∈ e.former :=
  Subrelation.wf sizeOf_lt_of_mem_former (measure sizeOf).wf

/-- The range at an index of the former self that a path leads to. -/
def rangeAt? (e : Expr) (place : List Nat × Nat) : Option OffsetRange :=
  (follow former e place.1).bind fun old ↦ old.ranges[place.2]?

/-- All ranges of an expression are those at its places, in order. -/
theorem lists_allRanges (e : Expr) :
    Lists (Prod.Lex (List.Lex (· < ·)) (· < ·)) e.rangeAt? e.allRanges :=
  Lists.follow wellFounded_former (fun e ↦ Lists.getElem? e.ranges) allRanges_eq e

end Expr

namespace Subtree

/-- The range at a place: a path down to an expression, and a place of that. -/
def rangeAt? (t : Subtree) (place : List Nat × List Nat × Nat) : Option OffsetRange :=
  (follow children t place.1).bind fun u ↦ u.expr?.bind fun e ↦ e.rangeAt? place.2

/-- The ranges of an expression come first, and those of what is below follow. -/
theorem ranges_eq (t : Subtree) :
    Part.ranges t = t.expr?.toList.flatMap Expr.allRanges ++ t.children.flatMap Part.ranges := by
  calc t.exprs.flatMap Expr.allRanges
    _ = (t.expr?.toList ++ t.children.flatMap exprs).flatMap Expr.allRanges := by rw [← exprs_eq]
    _ = _ := by rw [List.flatMap_append, List.flatMap_assoc]; rfl

/-- The ranges that a subtree covers are those at its places, in order. -/
theorem lists_ranges (t : Subtree) :
    Lists (Prod.Lex (List.Lex (· < ·)) (Prod.Lex (List.Lex (· < ·)) (· < ·))) t.rangeAt?
      (Part.ranges t) := by
  have hown (u : Subtree) : Lists (Prod.Lex (List.Lex (· < ·)) (· < ·))
      (fun place ↦ u.expr?.bind fun e ↦ e.rangeAt? place)
      (u.expr?.toList.flatMap Expr.allRanges) := by
    cases u.expr? with
    | none => exact Lists.nil fun _ ↦ rfl
    | some e => simpa using e.lists_allRanges
  exact Lists.follow wellFounded hown ranges_eq t

/-- Some range at a place has a property exactly where one of those that the subtree covers has
it. -/
theorem exists_rangeAt?_iff {t : Subtree} {p : OffsetRange → Prop} :
    (∃ place r, t.rangeAt? place = some r ∧ p r) ↔ ∃ r ∈ Part.ranges t, p r := by
  rw [exists_comm]
  simp only [t.lists_ranges.mem_iff, exists_and_right]

private theorem ranges_eq_nil_iff {t : Subtree} :
    Part.ranges t = [] ↔ ∀ place, t.rangeAt? place = none := by
  simp only [List.eq_nil_iff_forall_not_mem, t.lists_ranges.mem_iff, not_exists,
    Option.eq_none_iff_forall_ne_some]
  exact forall_comm

/-- Every range occurs among those that a subtree covers as often as there are places in the
subtree where it stands. The first offset is the least at which a range at a place begins and the
last one the greatest at which one ends; without ranges there is no first one, and the last one is
that of the empty range. -/
theorem ranges_exact (t : Subtree) :
    (∀ r, {place | t.rangeAt? place = some r}.encard = (Part.ranges t).count r) ∧
    ((∃ place r, t.rangeAt? place = some r) → ∃ offset, Part.firstOffset t = .ok offset ∧
      IsLeast {o | ∃ place r, t.rangeAt? place = some r ∧ r.first = o} offset ∧
      IsGreatest {o | ∃ place r, t.rangeAt? place = some r ∧ r.last = o} (Part.lastOffset t)) ∧
    ((∀ place, t.rangeAt? place = none) →
      Part.firstOffset t = .error .noRanges ∧ Part.lastOffset t = -1) := by
  simp only [exists_rangeAt?_iff]
  refine ⟨t.lists_ranges.encard_eq_count, fun h ↦ ?_, fun h ↦ ?_⟩
  · obtain ⟨place, r, hr⟩ := h
    have hne : Part.ranges t ≠ [] := List.ne_nil_of_mem (t.lists_ranges.mem_iff.mpr ⟨place, hr⟩)
    obtain ⟨offset, hf⟩ := Part.exists_firstOffset hne
    exact ⟨offset, hf, Part.firstOffset_eq_ok_iff.mp hf, Part.isGreatest_lastOffset hne⟩
  · have hnil : Part.ranges t = [] := ranges_eq_nil_iff.mpr h
    exact ⟨Part.firstOffset_eq_error_iff.mpr ⟨rfl, hnil⟩, Part.lastOffset_of_nil hnil⟩

end Subtree

end Cil
