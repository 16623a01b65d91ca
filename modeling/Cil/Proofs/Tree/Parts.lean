import Cil.Proofs.Tree.Former

/-!
# Spans of parts

The span of a subtree is put together from those of its parts: the statements of a block, the
bodies and the condition of a compound statement, and of an expression its arguments, its own ranges
and those of the expressions it was put in place of. Main statement: `Subtree.span_of_parts`.
-/

namespace Cil

namespace Expr

/-- The range is attached to the expression, or to one of its former selves, however far back. -/
def Attached (r : OffsetRange) (e : Expr) : Prop :=
  r ∈ e.ranges ∨ ∃ old : Expr, old.Recorded e ∧ r ∈ old.ranges

/-- Without its arguments an expression covers what is attached to it. -/
theorem mem_allRanges_iff {r : OffsetRange} {e : Expr} : r ∈ e.allRanges ↔ Attached r e := by
  constructor
  · induction e using wellFounded_former.induction with
    | _ e ih =>
      rw [allRanges_eq, List.mem_append, List.mem_flatMap]
      rintro (hr | ⟨old, hold, hr⟩)
      · exact Or.inl hr
      · obtain hr | ⟨older, holder, hr⟩ := ih old hold hr
        · exact Or.inr ⟨old, .single hold, hr⟩
        · exact Or.inr ⟨older, holder.tail hold, hr⟩
  · have hown (e : Expr) (hr : r ∈ e.ranges) : r ∈ e.allRanges := by
      rw [allRanges_eq]
      exact List.mem_append_left _ hr
    rintro (hr | ⟨old, hold, hr⟩)
    · exact hown e hr
    · exact hold.allRanges_subset (hown old hr)

end Expr

namespace Subtree

/-- The ranges that are attached to the subtree itself, which only an expression has. -/
def attached : Subtree → Set OffsetRange
  | .expr e => {r | Expr.Attached r e}
  | _ => ∅

/-- A subtree covers what is attached to it and what the subtrees directly below cover. -/
theorem mem_ranges_iff {t : Subtree} (r : OffsetRange) :
    r ∈ Part.ranges t ↔ r ∈ t.attached ∨ ∃ p ∈ t.children, r ∈ Part.ranges p := by
  rw [ranges_eq, List.mem_append, List.mem_flatMap, List.mem_flatMap]
  cases t with
  | expr e => simp [expr?, attached, Expr.mem_allRanges_iff]
  | _ => simp [expr?, attached]

/-- Where no range ends before the empty one, the last offset of a subtree is the greatest of -1,
the ends of what is attached to it and the last offsets of the subtrees directly below. Its first
offset is the least of the beginnings of what is attached and of the first offsets that those below
have, and it has none exactly where nothing is attached and none of them has one. -/
theorem span_of_parts (t : Subtree) (h : ∀ place r, t.rangeAt? place = some r → -1 ≤ r.last) :
    IsGreatest (insert (-1)
        ({o | ∃ r ∈ t.attached, r.last = o} ∪ {o | ∃ p ∈ t.children, Part.lastOffset p = o}))
      (Part.lastOffset t) ∧
    (∀ offset, Part.firstOffset t = .ok offset ↔
      IsLeast
        ({o | ∃ r ∈ t.attached, r.first = o} ∪ {o | ∃ p ∈ t.children, Part.firstOffset p = .ok o})
        offset) ∧
    (Part.firstOffset t = .error .noRanges ↔
      (∀ r, r ∉ t.attached) ∧ ∀ p ∈ t.children, Part.firstOffset p = .error .noRanges) := by
  have hlast : ∀ r ∈ Part.ranges t, OffsetRange.empty.last ≤ r.last := by
    intro r hr
    obtain ⟨place, hplace⟩ := t.lists_ranges.mem_iff.mp hr
    exact h place r hplace
  refine ⟨?_, fun _ ↦ Part.firstOffset_eq_ok_iff_of_parts mem_ranges_iff,
    Part.firstOffset_eq_error_iff_of_parts mem_ranges_iff⟩
  exact (Part.isGreatest_lastOffset_iff_of_parts mem_ranges_iff).mpr (Part.le_lastOffset hlast)

/-- A call that stands for another one and has an argument before both. -/
def call : Expr where
  op := .callvirt
  operand := none
  args := [{ Expr.ofOperation .ldloc with ranges := [⟨1, 3⟩] }]
  ranges := [⟨5, 9⟩]
  former := [{ Expr.ofOperation .call with ranges := [⟨10, 20⟩] }]

/-- The call in a guarded statement, with a handler that covers nothing and, for faults, a range
that ends where the empty one does. -/
def guarded : Subtree := .node (.tryCatch [.expr call] [⟨none, none, [.label "end"]⟩] none
  (some [.expr { Expr.ofOperation .nop with ranges := [⟨0, -1⟩] }]))

/-- The call ends where its former self does and begins where its argument does. The statement ends
with the call and begins with what it does for faults. -/
theorem span_of_parts_recorded :
    ((∀ place r, (expr call).rangeAt? place = some r → -1 ≤ r.last) ∧
      IsGreatest (insert (-1) ({o | ∃ r ∈ (expr call).attached, r.last = o} ∪
        {o | ∃ p ∈ (expr call).children, Part.lastOffset p = o})) 20 ∧
      IsLeast ({o | ∃ r ∈ (expr call).attached, r.first = o} ∪
        {o | ∃ p ∈ (expr call).children, Part.firstOffset p = .ok o}) 1) ∧
    (∀ place r, guarded.rangeAt? place = some r → -1 ≤ r.last) ∧
      IsGreatest (insert (-1) ({o | ∃ r ∈ guarded.attached, r.last = o} ∪
        {o | ∃ p ∈ guarded.children, Part.lastOffset p = o})) 20 ∧
      IsLeast ({o | ∃ r ∈ guarded.attached, r.first = o} ∪
        {o | ∃ p ∈ guarded.children, Part.firstOffset p = .ok o}) 0 := by
  have hplaced {t : Subtree} (h : ∀ r ∈ Part.ranges t, -1 ≤ r.last) :
      ∀ place r, t.rangeAt? place = some r → -1 ≤ r.last :=
    fun place r hr ↦ h r (t.lists_ranges.mem_iff.mpr ⟨place, hr⟩)
  have hcall := hplaced (t := expr call) (by decide)
  have hguarded := hplaced (t := guarded) (by decide)
  obtain ⟨hlast, hfirst, -⟩ := span_of_parts (expr call) hcall
  obtain ⟨hlast', hfirst', -⟩ := span_of_parts guarded hguarded
  exact ⟨⟨hcall, hlast, (hfirst 1).mp rfl⟩, hguarded, hlast', (hfirst' 0).mp rfl⟩

end Subtree

end Cil
