import Cil.Code.Query

/-!
# Code in order of offsets

Offsets saturate, so a layout ascends strictly only up to the greatest offset, and from there on
it stands still. Code is in order when its offsets are like that: `Code.Ordered`. Every layout is
in order (`Code.ordered_relayout`), and so is what is left of ordered code or emitted behind it.
In ordered code the lookups by offset find what they are meant to find:
`Code.Ordered.beforeOffset_cases`.
-/

namespace Cil

namespace Instr

/-- Offsets add up to the greatest offset and no further. -/
theorem toInt_advance {offset size : Int32} (h : 0 ≤ size.toInt) :
    (advance offset size).toInt = min Int32.maxValue.toInt (offset.toInt + size.toInt) := by
  have hmin : Int32.minValue.toInt ≤ offset.toInt + size.toInt := by
    have := offset.minValue_le_toInt
    omega
  rw [advance]
  by_cases hmax : offset.toInt + size.toInt ≤ Int32.maxValue.toInt
  · rw [Int32.toInt_ofIntClamp hmin hmax, Int.min_eq_right hmax]
  · rw [Int32.ofIntClamp, dif_pos hmin, dif_neg hmax, Int.min_eq_left (by omega)]

end Instr

namespace Code

/-- One offset lies before another, or both are the greatest there is. -/
def Rises (p q : Int32) : Prop := p < q ∨ p = Int32.maxValue ∧ q = Int32.maxValue

namespace Rises

variable {p q r size : Int32}

private theorem of_advance_le (hs : 1 ≤ size.toInt) (h : Instr.advance p size ≤ q) : Rises p q := by
  have ha : (Instr.advance p size).toInt = min Int32.maxValue.toInt (p.toInt + size.toInt) :=
    Instr.toInt_advance (by omega)
  have hq : (Instr.advance p size).toInt ≤ q.toInt := Int32.le_iff_toInt_le.mp h
  have hqm : q.toInt ≤ Int32.maxValue.toInt := q.toInt_le
  have hpm : p.toInt ≤ Int32.maxValue.toInt := p.toInt_le
  rw [ha] at hq
  by_cases hp : p.toInt < q.toInt
  · exact .inl (Int32.lt_iff_toInt_lt.mpr hp)
  · have hpe : p.toInt = Int32.maxValue.toInt := by omega
    have hqe : q.toInt = Int32.maxValue.toInt := by omega
    exact .inr ⟨Int32.toInt_inj.mp hpe, Int32.toInt_inj.mp hqe⟩

private theorem trans_le (h : Rises p q) (hr : q ≤ r) : Rises p r := by
  obtain hlt | ⟨hp, hq⟩ := h
  · exact .inl (Int32.lt_of_lt_of_le hlt hr)
  · have hrm : r ≤ Int32.maxValue := Int32.le_iff_toInt_le.mpr r.toInt_le
    exact .inr ⟨hp, Int32.le_antisymm hrm (hq ▸ hr)⟩

private theorem lt (h : Rises p q) (hp : p ≠ Int32.maxValue) : p < q :=
  h.resolve_right fun hm ↦ hp hm.1

end Rises

/-- The offsets of a sequence ascend from zero on, up to the greatest one. -/
structure Ordered (l : List Instr) : Prop where
  nonneg : ∀ i ∈ l, 0 ≤ i.offset
  rises : l.Pairwise fun i j ↦ Rises i.offset j.offset

private theorem Ordered.sublist {l l' : List Instr} (h : Ordered l) (hs : l'.Sublist l) :
    Ordered l' :=
  ⟨fun i hi ↦ h.nonneg i (hs.subset hi), h.rises.sublist hs⟩

/-! ### Layouts -/

private theorem le_advance {offset size : Int32} (hs : 1 ≤ size.toInt) :
    offset ≤ Instr.advance offset size := by
  have ha : (Instr.advance offset size).toInt =
      min Int32.maxValue.toInt (offset.toInt + size.toInt) := Instr.toInt_advance (by omega)
  have hm : offset.toInt ≤ Int32.maxValue.toInt := offset.toInt_le
  rw [Int32.le_iff_toInt_le, ha]
  omega

private theorem le_offset_of_mem_layOut {offset : Int32} {l : List Instr} :
    ∀ i ∈ layOut offset l, offset ≤ i.offset := by
  induction l generalizing offset with
  | nil => simp [layOut]
  | cons i rest ih =>
    rw [layOut, List.forall_mem_cons]
    refine ⟨Int32.le_refl offset, ?_⟩
    intro j hj
    exact Int32.le_trans (le_advance i.opcode.one_le_size) (ih j hj)

/-- A layout from a good offset on is in order. -/
theorem ordered_layOut {offset : Int32} (h : 0 ≤ offset) (l : List Instr) :
    Ordered (layOut offset l) := by
  refine ⟨fun i hi ↦ Int32.le_trans h (le_offset_of_mem_layOut i hi), ?_⟩
  clear h
  induction l generalizing offset with
  | nil => exact List.Pairwise.nil
  | cons i rest ih =>
    rw [layOut]
    refine List.Pairwise.cons ?_ ih
    intro j hj
    exact .of_advance_le i.opcode.one_le_size (le_offset_of_mem_layOut j hj)

/-- Code laid out anew is in order, whatever its offsets were. -/
theorem ordered_relayout (c : Code) : Ordered c.relayout.toList :=
  ordered_layOut (Int32.le_refl 0) c.toList

namespace Ordered

variable {c : Code}

private theorem rises_nextOffset (h : Ordered c.toList) :
    0 ≤ c.nextOffset ∧ ∀ i ∈ c.toList, Rises i.offset c.nextOffset := by
  rcases List.eq_nil_or_concat c.toList with hc | ⟨init, last, hc⟩
  · rw [nextOffset, hc]
    exact ⟨Int32.le_refl 0, by simp⟩
  · rw [List.concat_eq_append] at hc
    have hn : c.nextOffset = Instr.advance last.offset last.size := by
      rw [nextOffset, hc, List.getLast?_concat]
    have hle : last.offset ≤ c.nextOffset := hn ▸ le_advance last.opcode.one_le_size
    have hlast : Rises last.offset c.nextOffset :=
      .of_advance_le last.opcode.one_le_size (hn ▸ Int32.le_refl _)
    have hr := h.rises
    rw [hc, List.pairwise_append] at hr
    refine ⟨Int32.le_trans (h.nonneg last (by simp [hc])) hle, ?_⟩
    rw [hc, List.forall_mem_append, List.forall_mem_singleton]
    exact ⟨fun i hi ↦ (hr.2.2 i hi last (List.mem_singleton_self last)).trans_le hle, hlast⟩

/-- What is emitted behind code in order continues the order. -/
theorem emit (h : Ordered c.toList) (opcode : Opcode) (s : Supply) :
    Ordered (c.emit opcode s).1.2.toList := by
  obtain ⟨h0, hr⟩ := h.rises_nextOffset
  rw [toList_emit]
  constructor
  · rw [List.forall_mem_append, List.forall_mem_singleton]
    exact ⟨h.nonneg, h0⟩
  · rw [List.pairwise_append]
    refine ⟨h.rises, List.pairwise_singleton _ _, ?_⟩
    intro i hi j hj
    rw [List.mem_singleton.mp hj]
    exact hr i hi

/-- Taking an instruction out keeps the order of the others. -/
theorem remove (h : Ordered c.toList) {id : InstrId} {i : Instr} {rest : Code}
    (hr : c.remove id = .ok (i, rest)) : Ordered rest.toList := by
  obtain ⟨front, back, hl, -, -, rfl⟩ := remove_eq_ok_iff.mp hr
  rw [hl] at h
  exact h.sublist ((List.sublist_cons_self i back).append_left front)

variable {l : List Instr}

/-- Where the order is strict, all but the last instruction stand below the greatest offset, and
that is enough. -/
theorem pairwise_lt_iff (h : Ordered l) :
    l.Pairwise (fun i j ↦ i.offset < j.offset) ↔
      ∀ i ∈ l.dropLast, i.offset < Int32.maxValue := by
  rcases List.eq_nil_or_concat l with rfl | ⟨init, last, rfl⟩
  · simp
  rw [List.concat_eq_append] at h ⊢
  obtain ⟨hinit, -, hlast⟩ := List.pairwise_append.mp h.rises
  rw [List.dropLast_concat]
  constructor
  · intro hlt i hi
    have hm : last.offset ≤ Int32.maxValue := Int32.le_iff_toInt_le.mpr last.offset.toInt_le
    exact Int32.lt_of_lt_of_le ((List.pairwise_append.mp hlt).2.2 i hi last (by simp)) hm
  · intro hbelow
    have hlt {i j : Instr} (hi : i ∈ init) (hr : Rises i.offset j.offset) : i.offset < j.offset :=
      hr.lt (Int32.ne_of_lt (hbelow i hi))
    refine List.pairwise_append.mpr ⟨?_, List.pairwise_singleton _ _, ?_⟩
    · exact hinit.imp_of_mem fun hi _ ↦ hlt hi
    · exact fun i hi j hj ↦ hlt hi (hlast i hi j hj)

/-! ### Lookups -/

/-- Below the greatest offset no two instructions share one. -/
theorem countP_le_one (h : Ordered l) {offset : Int32} (ho : offset < Int32.maxValue) :
    l.countP (·.offset = offset) ≤ 1 := by
  have hne : offset ≠ Int32.maxValue := Int32.ne_of_lt ho
  have hs : (l.filter (·.offset = offset)).Sublist l := List.filter_sublist
  have he : ∀ i ∈ l.filter (·.offset = offset), i.offset = offset := by simp
  rw [List.countP_eq_length_filter]
  generalize l.filter (·.offset = offset) = same at hs he ⊢
  match same with
  | [] => exact Nat.zero_le 1
  | [_] => exact Nat.le_refl 1
  | i :: j :: _ =>
    have hij : Rises i.offset j.offset := List.rel_of_pairwise_cons (h.sublist hs).rises (by simp)
    rw [he i (by simp), he j (by simp)] at hij
    exact absurd (hij.lt hne) Int32.lt_irrefl

/-- The instruction found before an offset has the greatest offset of those before it, and none is
found only where there is none. -/
theorem beforeOffset_cases (h : Ordered l) (offset : Int32) :
    (∃ i ∈ l, beforeOffset offset l = .ok i ∧ i.offset < offset ∧
      ∀ j ∈ l, j.offset < offset → j.offset ≤ i.offset) ∨
    (beforeOffset offset l = .error (.noInstruction .before offset) ∧
      ∀ j ∈ l, ¬ j.offset < offset) := by
  cases hb : beforeOffset offset l with
  | error e =>
    obtain ⟨rfl, hn⟩ := beforeOffset_eq_error_iff.mp hb
    exact .inr ⟨rfl, hn⟩
  | ok i =>
    obtain ⟨front, back, rfl, hi, hback⟩ := beforeOffset_eq_ok_iff.mp hb
    refine .inl ⟨i, by simp, rfl, hi, ?_⟩
    have hr := (List.pairwise_append.mp h.rises).2.2
    intro j hj hlt
    rcases List.mem_append.mp hj with hf | hib
    · -- An offset below another one is not the greatest.
      have hm : offset ≤ Int32.maxValue := Int32.le_iff_toInt_le.mpr offset.toInt_le
      have hne : j.offset ≠ Int32.maxValue := Int32.ne_of_lt (Int32.lt_of_lt_of_le hlt hm)
      exact Int32.le_of_lt ((hr j hf i List.mem_cons_self).lt hne)
    · rcases List.mem_cons.mp hib with rfl | hjb
      · exact Int32.le_refl _
      · exact absurd hlt (hback j hjb)

end Ordered

end Code

end Cil
