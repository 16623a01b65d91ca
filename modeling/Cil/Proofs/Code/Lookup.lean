import Cil.Code.Query

/-!
# Lookups by offset agree

A range is scanned from the front, the instruction at an offset is sought from the front as well,
and the one before an offset from the back. What they find is nevertheless the same, whatever the
order of the offsets: the first and the last instruction within a range of their own. Main
statement: `Code.lookups_agree`.
-/

namespace Cil.Code

private theorem lt_iff_le_sub_one {offset : Int32} (h : Int32.minValue < offset) (p : Int32) :
    p < offset ↔ p ≤ offset - 1 := by
  have hmin : -2147483648 < offset.toInt := Int32.lt_iff_toInt_lt.mp h
  have hmax : offset.toInt ≤ 2147483647 := offset.toInt_le
  have hsub : (offset - 1).toInt = offset.toInt - 1 := by
    rw [Int32.toInt_sub]
    apply Int.bmod_eq_of_le
    · change -2147483648 ≤ offset.toInt - 1
      omega
    · change offset.toInt - 1 < 2147483648
      omega
  rw [Int32.lt_iff_toInt_lt, Int32.le_iff_toInt_le, hsub]
  omega

variable {offset : Int32} {l : List Instr}

private theorem head?_within_self (offset : Int32) (l : List Instr) :
    (within ⟨offset, offset⟩ l).head? = l.find? fun i ↦ i.offset == offset := by
  rw [within_eq_filter, List.head?_filter]
  congr 1
  funext i
  rw [Bool.eq_iff_iff, decide_eq_true_iff, beq_iff_eq]
  exact ⟨fun h ↦ Int32.le_antisymm h.2 h.1, fun h ↦ h ▸ ⟨Int32.le_refl _, Int32.le_refl _⟩⟩

/-- The instruction at an offset is the first within the range of that offset. -/
theorem atOffset_eq_ok_iff {i : Instr} :
    atOffset offset l = .ok i ↔ (within ⟨offset, offset⟩ l).head? = some i := by
  rw [head?_within_self, atOffset]
  cases l.find? fun i ↦ i.offset == offset <;> simp

/-- There is no instruction at an offset exactly when the range of that offset is empty. -/
theorem atOffset_eq_error_iff {e : Error} :
    atOffset offset l = .error e ↔
      e = .noInstruction .at offset ∧ within ⟨offset, offset⟩ l = [] := by
  rw [← List.head?_eq_none_iff, head?_within_self, atOffset]
  cases l.find? fun i ↦ i.offset == offset <;> simp [eq_comm]

private theorem getLast?_within_below (h : Int32.minValue < offset) (l : List Instr) :
    (within ⟨Int32.minValue, offset - 1⟩ l).getLast? =
      l.reverse.find? fun i ↦ i.offset < offset := by
  rw [within_eq_filter, List.getLast?_filter]
  congr 1
  funext i
  rw [decide_eq_decide, lt_iff_le_sub_one h]
  exact and_iff_right i.offset.minValue_le

/-- The instruction before an offset is the last within the range below it. -/
theorem beforeOffset_eq_ok_iff_getLast? (h : Int32.minValue < offset) {i : Instr} :
    beforeOffset offset l = .ok i ↔
      (within ⟨Int32.minValue, offset - 1⟩ l).getLast? = some i := by
  rw [getLast?_within_below h, beforeOffset]
  cases l.reverse.find? fun i ↦ i.offset < offset <;> simp

/-- In any sequence of instructions, a scan of a range comes to exactly those with an offset from
the first to the last one of the range, each where it stands. What is found at an offset is the
first within the range of that offset alone, and there is none exactly when nothing is in that
range. What is found before an offset is the last within the range of all lower offsets, and there
is none exactly when no offset is lower. -/
theorem lookups_agree (l : List Instr) :
    (∀ r, within r l = l.filter fun i ↦ r.first ≤ i.offset ∧ i.offset ≤ r.last) ∧
    (∀ offset,
      (∀ i, atOffset offset l = .ok i ↔ (within ⟨offset, offset⟩ l).head? = some i) ∧
      ∀ e, atOffset offset l = .error e ↔
        e = .noInstruction .at offset ∧ within ⟨offset, offset⟩ l = []) ∧
    ∀ offset,
      (Int32.minValue < offset → ∀ i, beforeOffset offset l = .ok i ↔
        (within ⟨Int32.minValue, offset - 1⟩ l).getLast? = some i) ∧
      ∀ e, beforeOffset offset l = .error e ↔
        e = .noInstruction .before offset ∧ ∀ i ∈ l, ¬ i.offset < offset := by
  refine ⟨fun r ↦ within_eq_filter r l, fun offset ↦ ?_, fun offset ↦ ?_⟩
  · exact ⟨fun i ↦ atOffset_eq_ok_iff, fun e ↦ atOffset_eq_error_iff⟩
  · exact ⟨fun h i ↦ beforeOffset_eq_ok_iff_getLast? h, fun e ↦ beforeOffset_eq_error_iff⟩

/-- Offsets out of order and repeated, down to the least one. -/
theorem lookups_agree_unordered :
    Int32.minValue < -2147483647 ∧
    beforeOffset (-2147483647) [⟨⟨1⟩, 7, .nop⟩, ⟨⟨2⟩, Int32.minValue, .dup⟩, ⟨⟨3⟩, 7, .pop⟩,
      ⟨⟨4⟩, Int32.minValue, .ret⟩] = .ok ⟨⟨4⟩, Int32.minValue, .ret⟩ := by
  have h : Int32.minValue < -2147483647 := by decide
  refine ⟨h, (((lookups_agree _).2.2 (-2147483647)).1 h _).mpr ?_⟩
  rw [within_eq_filter]
  rfl

end Cil.Code
