import Cil.Code.Basic
import Cil.OffsetRange

/-!
# Lookups by offset

What stands at an offset, before it, or within a range, in any sequence of instructions; the
sequence need not be in order of offsets.
-/

namespace Cil.Code

/-- A scan for the instructions within a range, and what lies ahead of it; `WithinRange`. -/
structure Scan where
  range : OffsetRange
  ahead : List Instr

namespace Scan

/-- The first instruction within a range, and what follows it; where there is none, nothing
follows. -/
def seek (r : OffsetRange) : List Instr → Option Instr × List Instr
  | [] => (none, [])
  | i :: rest => if r.contains i.offset then (some i, rest) else seek r rest

/-- Goes on to the next instruction within the range; `WithinRange.next`. -/
def next (s : Scan) : Option Instr × Scan :=
  let sought := seek s.range s.ahead
  (sought.1, { s with ahead := sought.2 })

private theorem length_seek_lt {r : OffsetRange} {l rest : List Instr} {i : Instr}
    (h : seek r l = (some i, rest)) : rest.length < l.length := by
  induction l with
  | nil => simp [seek] at h
  | cons j l ih =>
    rw [seek] at h
    split at h
    · cases h
      exact Nat.lt_succ_self _
    · exact Nat.lt_succ_of_lt (ih h)

/-- An instruction that a scan comes to no longer lies ahead. -/
theorem length_ahead_lt {s t : Scan} {i : Instr} (h : s.next = (some i, t)) :
    t.ahead.length < s.ahead.length := by
  obtain ⟨hi, rfl⟩ : (seek s.range s.ahead).1 = some i ∧ _ = t := by simpa [next] using h
  exact length_seek_lt (Prod.ext hi rfl)

/-- The instructions that a scan comes to until it finds no more. -/
def toList (s : Scan) : List Instr :=
  match h : s.next with
  | (none, _) => []
  | (some i, t) =>
    have : t.ahead.length < s.ahead.length := length_ahead_lt h
    i :: t.toList
termination_by s.ahead.length

private theorem toList_eq (s : Scan) :
    s.toList = match s.next with
      | (none, _) => []
      | (some i, t) => i :: t.toList := by
  rw [toList]
  split <;> simp_all

/-- A scan stops at an instruction within its range, and passes another one. -/
theorem next_cons (r : OffsetRange) (i : Instr) (l : List Instr) :
    next ⟨r, i :: l⟩ = if r.contains i.offset then (some i, ⟨r, l⟩) else next ⟨r, l⟩ := by
  simp only [next, seek]
  split <;> rfl

/-- A scan comes to the instructions within its range in order. -/
theorem toList_eq_filter (r : OffsetRange) (l : List Instr) :
    toList ⟨r, l⟩ = l.filter fun i ↦ r.contains i.offset := by
  induction l with
  | nil =>
    rw [toList_eq]
    rfl
  | cons i l ih =>
    rw [toList_eq, next_cons, List.filter_cons, ← ih]
    by_cases hi : r.contains i.offset = true
    · rw [if_pos hi, if_pos hi]
    · rw [if_neg hi, if_neg hi, ← toList_eq]

end Scan

/-- The instructions whose offsets lie in the range, in order; `InstructionQuery.within_range`. -/
def within (r : OffsetRange) (l : List Instr) : List Instr := (Scan.mk r l).toList

/-- What is within a range is found by comparing offsets with both of its ends. -/
theorem within_eq_filter (r : OffsetRange) (l : List Instr) :
    within r l = l.filter fun i ↦ r.first ≤ i.offset ∧ i.offset ≤ r.last :=
  Scan.toList_eq_filter r l

/-- The first instruction at the offset; `InstructionQuery.at_offset`. -/
def atOffset (offset : Int32) (l : List Instr) : Except Error Instr :=
  match l.find? fun i ↦ i.offset == offset with
  | some i => .ok i
  | none => .error (.noInstruction .at offset)

/-- The last instruction before the offset; `InstructionQuery.before_offset`. -/
def beforeOffset (offset : Int32) (l : List Instr) : Except Error Instr :=
  match l.reverse.find? fun i ↦ i.offset < offset with
  | some i => .ok i
  | none => .error (.noInstruction .before offset)

/-- The last instruction before the offset has none of them behind it. -/
theorem beforeOffset_eq_ok_iff {offset : Int32} {l : List Instr} {i : Instr} :
    beforeOffset offset l = .ok i ↔ ∃ front back, l = front ++ i :: back ∧ i.offset < offset ∧
      ∀ j ∈ back, ¬ j.offset < offset := by
  have hf : l.reverse.find? (fun i ↦ i.offset < offset) = some i ↔
      ∃ front back, l = front ++ i :: back ∧ i.offset < offset ∧
        ∀ j ∈ back, ¬ j.offset < offset := by
    rw [List.find?_eq_some_iff_append]
    constructor
    · rintro ⟨hi, behind, front, hl, hb⟩
      refine ⟨front.reverse, behind.reverse, ?_, by simpa using hi, by simpa using hb⟩
      rw [← List.reverse_reverse l, hl]
      simp
    · rintro ⟨front, back, rfl, hi, hb⟩
      exact ⟨by simpa using hi, back.reverse, front.reverse, by simp, by simpa using hb⟩
  rw [← hf, beforeOffset]
  split
  next j h => rw [h, Except.ok.injEq, Option.some.injEq]
  next h => simp [h]

/-- There is no instruction before the offset exactly when all stand at it or behind it. -/
theorem beforeOffset_eq_error_iff {offset : Int32} {l : List Instr} {e : Error} :
    beforeOffset offset l = .error e ↔
      e = .noInstruction .before offset ∧ ∀ j ∈ l, ¬ j.offset < offset := by
  rw [beforeOffset]
  split
  next j h =>
    have hj : j ∈ l.reverse := List.mem_of_find?_eq_some h
    have hlt : j.offset < offset := by simpa using List.find?_some h
    simp only [reduceCtorEq, false_iff, not_and]
    exact fun _ hn ↦ hn j (List.mem_reverse.mp hj) hlt
  next h =>
    have hn : ∀ j ∈ l, ¬ j.offset < offset := by simpa using h
    rw [Except.error.injEq, eq_comm, and_iff_left hn]

/-- The instructions from index `start` to before index `stop`, as far as there are any. -/
def slice (start stop : Nat) (l : List Instr) : List Instr := (l.take stop).drop start

end Cil.Code
