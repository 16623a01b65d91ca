import Cil.Proofs.Code.Lookup
import Cil.Proofs.Tree.Span
import Cil.Proofs.Tree.Subtree
import Mathlib.Order.Basic

/-!
# Instructions of a subtree

The span of a subtree stands for its ranges when instructions are looked up: it leaves none of
them out. Main statement: `Subtree.span_holds`.
-/

namespace Cil

namespace Part

variable {α : Type} [Part α] {part : α} {first : Int32}

private theorem mem_span_of_mem (hf : firstOffset part = .ok first) {r : OffsetRange}
    (hr : r ∈ ranges part) {offset : Int32} (ho : offset ∈ r) :
    offset ∈ (⟨first, lastOffset part⟩ : OffsetRange) := by
  obtain ⟨hfirst, hlast⟩ := OffsetRange.mem_iff.mp ho
  have hbelow : first ≤ r.first := (firstOffset_eq_ok_iff.mp hf).2 ⟨r, hr, rfl⟩
  have habove : r.last ≤ lastOffset part :=
    (isGreatest_lastOffset (List.ne_nil_of_mem hr)).2 ⟨r, hr, rfl⟩
  exact OffsetRange.mem_iff.mpr
    ⟨Int32.le_trans hbelow hfirst, Int32.le_trans hlast habove⟩

private theorem sublist_within_span (hf : firstOffset part = .ok first) (l : List Instr) :
    (l.filter fun i ↦ (ranges part).any (·.contains i.offset)).Sublist
      (Code.within ⟨first, lastOffset part⟩ l) := by
  rw [Code.within_eq_filter]
  apply List.monotone_filter_right
  intro i hi
  obtain ⟨r, hr, ho⟩ := List.any_eq_true.mp hi
  exact mem_span_of_mem hf hr ho

end Part

namespace Subtree

/-- Between the first and the last offset of a subtree a scan comes to every instruction that lies
in one of its ranges, each once and in order; the first offset begins a range and the last one
ends a range. A subtree without a first offset has the last offset of the empty range, and no
instruction lies in a range of it. -/
theorem span_holds (t : Subtree) :
    (∀ first, Part.firstOffset t = .ok first →
      (∀ l : List Instr,
        (l.filter fun i ↦ (Part.ranges t).any (·.contains i.offset)).Sublist
            (Code.within ⟨first, Part.lastOffset t⟩ l) ∧
          (Code.within ⟨first, Part.lastOffset t⟩ l).Sublist l) ∧
      (∃ r ∈ Part.ranges t, r.first = first) ∧
      ∃ r ∈ Part.ranges t, r.last = Part.lastOffset t) ∧
    ∀ e, Part.firstOffset t = .error e →
      Part.lastOffset t = -1 ∧ ∀ i : Instr, ∀ r ∈ Part.ranges t, ¬ i.offset ∈ r := by
  constructor
  · intro first hf
    obtain ⟨r, hr, hfirst⟩ := (Part.firstOffset_eq_ok_iff.mp hf).1
    have hne : Part.ranges t ≠ [] := List.ne_nil_of_mem hr
    refine ⟨fun l ↦ ⟨Part.sublist_within_span hf l, ?_⟩, ⟨r, hr, hfirst⟩, ?_⟩
    · rw [Code.within_eq_filter]
      exact List.filter_sublist
    · exact (Part.isGreatest_lastOffset hne).1
  · intro e he
    have hnil : Part.ranges t = [] := (Part.firstOffset_eq_error_iff.mp he).2
    exact ⟨Part.lastOffset_of_nil hnil, by simp [hnil]⟩

/-- A call with a range before all offsets and an inverted one, whose argument was put in place of
another expression. -/
def rewritten : Subtree := .expr {
  op := .call, operand := none, ranges := [⟨-3, 4⟩, ⟨20, 10⟩], former := [],
  args := [{ op := .ldloc, operand := none, args := [], ranges := [], former := [
    { op := .ldarg, operand := none, args := [], ranges := [⟨30, 31⟩], former := [] }] }] }

/-- The span also holds an instruction between the ranges; the order is that of the code. A label
has no span. -/
theorem span_holds_rewritten :
    Part.firstOffset rewritten = .ok (-3) ∧
    [(⟨⟨1⟩, 31, .ret⟩ : Instr), ⟨⟨4⟩, -1, .pop⟩].Sublist
      (Code.within ⟨-3, Part.lastOffset rewritten⟩
        [⟨⟨1⟩, 31, .ret⟩, ⟨⟨2⟩, 32, .nop⟩, ⟨⟨3⟩, 15, .dup⟩, ⟨⟨4⟩, -1, .pop⟩]) ∧
    Part.firstOffset (node (.label "end")) = .error .noRanges ∧
    Part.lastOffset (node (.label "end")) = -1 := by
  have hf : Part.firstOffset rewritten = .ok (-3) := rfl
  have hl := (((span_holds rewritten).1 (-3) hf).1
    [⟨⟨1⟩, 31, .ret⟩, ⟨⟨2⟩, 32, .nop⟩, ⟨⟨3⟩, 15, .dup⟩, ⟨⟨4⟩, -1, .pop⟩]).1
  exact ⟨hf, hl, rfl, ((span_holds (node (.label "end"))).2 _ rfl).1⟩

end Subtree

end Cil
