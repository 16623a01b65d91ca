import Cil.Tree.Coverage
import Mathlib.Order.Bounds.Basic

/-!
# Ends of a span

The first offset that a part covers is the least at which one of its ranges begins, the last one
the greatest at which one ends.
-/

namespace Cil

/-- The greater of two offsets is one of them, and at most what both are at most. -/
instance instLawfulOrderMaxInt32 : Std.LawfulOrderMax Int32 where
  max_eq_or a b := by
    change (if a ≤ b then b else a) = a ∨ (if a ≤ b then b else a) = b
    split <;> simp
  max_le_iff a b c := by
    change (if a ≤ b then b else a) ≤ c ↔ a ≤ c ∧ b ≤ c
    simp only [Int32.le_iff_toInt_le]
    split <;> omega

namespace Part

variable {α : Type} [Part α] {part : α}

/-- A first offset is the least first offset of a range. -/
theorem firstOffset_eq_ok_iff {offset : Int32} :
    firstOffset part = .ok offset ↔
      IsLeast {o | ∃ r ∈ ranges part, r.first = o} offset := by
  have hm : ((ranges part).map (·.first)).min? = some offset ↔
      IsLeast {o | ∃ r ∈ ranges part, r.first = o} offset := by
    rw [List.min?_eq_some_iff]
    simp [IsLeast, lowerBounds]
  rw [← hm, firstOffset]
  cases ((ranges part).map (·.first)).min? <;> simp

/-- There is no first offset exactly where there are no ranges. -/
theorem firstOffset_eq_error_iff {e : Error} :
    firstOffset part = .error e ↔ e = .noRanges ∧ ranges part = [] := by
  have hm : ((ranges part).map (·.first)).min? = none ↔ ranges part = [] := by
    simp
  rw [← hm, firstOffset]
  cases ((ranges part).map (·.first)).min? <;> simp [eq_comm]

/-- Without ranges the last offset is that of the empty range. -/
theorem lastOffset_of_nil (h : ranges part = []) : lastOffset part = OffsetRange.empty.last := by
  simp [lastOffset, h]

/-- The last offset is the greatest last offset of a range. -/
theorem isGreatest_lastOffset (h : ranges part ≠ []) :
    IsGreatest {o | ∃ r ∈ ranges part, r.last = o} (lastOffset part) := by
  cases hm : ((ranges part).map (·.last)).max? with
  | none => simp_all
  | some offset =>
    rw [lastOffset, hm, Option.getD_some]
    simpa [IsGreatest, upperBounds] using List.max?_eq_some_iff.mp hm

/-- A part that covers anything has a first offset. -/
theorem exists_firstOffset (h : ranges part ≠ []) : ∃ offset, firstOffset part = .ok offset := by
  cases hf : firstOffset part with
  | ok offset => exact ⟨offset, rfl⟩
  | error e => exact absurd (firstOffset_eq_error_iff.mp hf).2 h

/-! ### Two spans -/

section Compare

variable {β : Type} [Part β] {other : β}

/-- A part has a first offset at or before that of another exactly where each range of the other
begins at or behind one of its own. -/
theorem firstOffset_le_iff :
    (∀ o, firstOffset other = .ok o → ∃ offset, firstOffset part = .ok offset ∧ offset ≤ o) ↔
      ∀ r ∈ ranges other, ∃ q ∈ ranges part, q.first ≤ r.first := by
  constructor
  · intro h r hr
    obtain ⟨o, ho⟩ := exists_firstOffset (List.ne_nil_of_mem hr)
    obtain ⟨offset, hf, hle⟩ := h o ho
    obtain ⟨q, hq, rfl⟩ := (firstOffset_eq_ok_iff.mp hf).1
    exact ⟨q, hq, Int32.le_trans hle ((firstOffset_eq_ok_iff.mp ho).2 ⟨r, hr, rfl⟩)⟩
  · intro h o ho
    obtain ⟨r, hr, rfl⟩ := (firstOffset_eq_ok_iff.mp ho).1
    obtain ⟨q, hq, hqr⟩ := h r hr
    obtain ⟨offset, hf⟩ := exists_firstOffset (List.ne_nil_of_mem hq)
    exact ⟨offset, hf, Int32.le_trans ((firstOffset_eq_ok_iff.mp hf).2 ⟨q, hq, rfl⟩) hqr⟩

/-- Of two parts that cover anything, one ends at or behind the other exactly where each range of
the other ends at or before one of its own. -/
theorem lastOffset_le_iff (h : ranges part ≠ []) (ho : ranges other ≠ []) :
    lastOffset other ≤ lastOffset part ↔
      ∀ r ∈ ranges other, ∃ q ∈ ranges part, r.last ≤ q.last := by
  obtain ⟨⟨q, hq, hql⟩, hg⟩ := isGreatest_lastOffset h
  obtain ⟨⟨r, hr, hrl⟩, hgo⟩ := isGreatest_lastOffset ho
  constructor
  · intro hle x hx
    exact ⟨q, hq, hql ▸ Int32.le_trans (hgo ⟨x, hx, rfl⟩) hle⟩
  · intro hall
    obtain ⟨x, hx, hrx⟩ := hall r hr
    exact hrl ▸ Int32.le_trans hrx (hg ⟨x, hx, rfl⟩)

/-- Two parts have the same first offset, or both none, exactly where each range of either begins
at or behind one of the other. -/
theorem firstOffset_eq_iff :
    firstOffset part = firstOffset other ↔
      (∀ r ∈ ranges other, ∃ q ∈ ranges part, q.first ≤ r.first) ∧
        ∀ r ∈ ranges part, ∃ q ∈ ranges other, q.first ≤ r.first := by
  rw [← firstOffset_le_iff, ← firstOffset_le_iff]
  constructor
  · intro h
    rw [h]
    exact ⟨fun o ho ↦ ⟨o, ho, Int32.le_refl o⟩, fun o ho ↦ ⟨o, ho, Int32.le_refl o⟩⟩
  · rintro ⟨h, ho⟩
    cases hf : firstOffset part with
    | ok offset =>
      obtain ⟨o, hfo, hle⟩ := ho offset hf
      obtain ⟨offset', hf', hle'⟩ := h o hfo
      obtain rfl : offset = offset' := by simpa [hf] using hf'
      rw [hfo, Int32.le_antisymm hle hle']
    | error e =>
      cases hfo : firstOffset other with
      | ok o =>
        obtain ⟨offset, hf', -⟩ := h o hfo
        simp [hf] at hf'
      | error e' =>
        rw [(firstOffset_eq_error_iff.mp hf).1, (firstOffset_eq_error_iff.mp hfo).1]

/-- Two parts that cover anything have the same last offset exactly where each range of either ends
at or before one of the other. -/
theorem lastOffset_eq_iff (h : ranges part ≠ []) (ho : ranges other ≠ []) :
    lastOffset part = lastOffset other ↔
      (∀ r ∈ ranges other, ∃ q ∈ ranges part, r.last ≤ q.last) ∧
        ∀ r ∈ ranges part, ∃ q ∈ ranges other, r.last ≤ q.last := by
  rw [← lastOffset_le_iff h ho, ← lastOffset_le_iff ho h]
  constructor
  · intro he
    rw [he]
    exact ⟨Int32.le_refl _, Int32.le_refl _⟩
  · rintro ⟨h₁, h₂⟩
    exact Int32.le_antisymm h₂ h₁

/-- Of a part that has the ranges of another, the last offset lies before that of the other exactly
where the other covers nothing and the part only what ends before the empty range does. -/
theorem lastOffset_lt_iff_of_subset (h : ranges other ⊆ ranges part) :
    lastOffset part < lastOffset other ↔
      ranges other = [] ∧ ranges part ≠ [] ∧
        ∀ r ∈ ranges part, r.last < OffsetRange.empty.last := by
  by_cases ho : ranges other = []
  · rw [lastOffset_of_nil ho]
    by_cases hp : ranges part = []
    · simp [hp, lastOffset_of_nil hp]
    · obtain ⟨⟨q, hq, hql⟩, hg⟩ := isGreatest_lastOffset hp
      simp only [ho, hp, ne_eq, not_false_eq_true, true_and]
      exact ⟨fun hlt r hr ↦ Int32.lt_of_le_of_lt (hg ⟨r, hr, rfl⟩) hlt, fun hall ↦ hql ▸ hall q hq⟩
  · have hp : ranges part ≠ [] := fun hp ↦ ho (List.subset_nil.mp (hp ▸ h))
    have hle : lastOffset other ≤ lastOffset part :=
      (lastOffset_le_iff hp ho).mpr fun r hr ↦ ⟨r, h hr, Int32.le_refl _⟩
    simp [ho, Int32.not_lt.mpr hle]

/-- Parts with the same ranges have the same offsets, however often and in whichever order the
ranges occur. -/
theorem offsets_eq_of_subset (h : ranges part ⊆ ranges other) (ho : ranges other ⊆ ranges part) :
    firstOffset part = firstOffset other ∧ lastOffset part = lastOffset other := by
  refine ⟨firstOffset_eq_iff.mpr ⟨fun r hr ↦ ⟨r, ho hr, Int32.le_refl _⟩,
    fun r hr ↦ ⟨r, h hr, Int32.le_refl _⟩⟩, ?_⟩
  by_cases hn : ranges part = []
  · have hno : ranges other = [] := List.subset_nil.mp (hn ▸ ho)
    rw [lastOffset_of_nil hn, lastOffset_of_nil hno]
  · have hno : ranges other ≠ [] := fun hno ↦ hn (List.subset_nil.mp (hno ▸ h))
    exact (lastOffset_eq_iff hn hno).mpr ⟨fun r hr ↦ ⟨r, ho hr, Int32.le_refl _⟩,
      fun r hr ↦ ⟨r, h hr, Int32.le_refl _⟩⟩

end Compare

/-- The part has the last offset of the empty range exactly where it covers nothing, or its
ranges end there at the latest and one of them does. -/
theorem lastOffset_eq_empty_iff :
    lastOffset part = OffsetRange.empty.last ↔ ranges part = [] ∨
      (∀ r ∈ ranges part, r.last ≤ OffsetRange.empty.last) ∧
        ∃ r ∈ ranges part, r.last = OffsetRange.empty.last := by
  by_cases hn : ranges part = []
  · simp [hn, lastOffset_of_nil hn]
  · obtain ⟨⟨q, hq, hql⟩, hg⟩ := isGreatest_lastOffset hn
    constructor
    · intro h
      rw [h] at hql hg
      exact .inr ⟨fun r hr ↦ hg ⟨r, hr, rfl⟩, q, hq, hql⟩
    · rintro (h | ⟨hle, r, hr, hrl⟩)
      · exact absurd h hn
      · exact Int32.le_antisymm (hql ▸ hle q hq) (hrl ▸ hg ⟨r, hr, rfl⟩)

/-! ### A span of parts -/

section Compose

variable {β : Type} [Part β] {own : Set OffsetRange} {parts : List β}
  (h : ∀ r, r ∈ ranges part ↔ r ∈ own ∨ ∃ p ∈ parts, r ∈ ranges p)

include h

/-- The first offset is the least of those at which own ranges begin and of those that the parts
have. -/
theorem firstOffset_eq_ok_iff_of_parts {offset : Int32} :
    firstOffset part = .ok offset ↔
      IsLeast ({o | ∃ r ∈ own, r.first = o} ∪ {o | ∃ p ∈ parts, firstOffset p = .ok o}) offset := by
  have hleast {first : Int32} (hf : firstOffset part = .ok first) :
      IsLeast ({o | ∃ r ∈ own, r.first = o} ∪ {o | ∃ p ∈ parts, firstOffset p = .ok o}) first := by
    obtain ⟨⟨r, hr, hrf⟩, hlow⟩ := firstOffset_eq_ok_iff.mp hf
    have hbelow : first ∈
        lowerBounds ({o | ∃ r ∈ own, r.first = o} ∪ {o | ∃ p ∈ parts, firstOffset p = .ok o}) := by
      rintro o (⟨q, hq, rfl⟩ | ⟨p, hp, ho⟩)
      · exact hlow ⟨q, (h q).mpr (.inl hq), rfl⟩
      · obtain ⟨q, hq, rfl⟩ := (firstOffset_eq_ok_iff.mp ho).1
        exact hlow ⟨q, (h q).mpr (.inr ⟨p, hp, hq⟩), rfl⟩
    obtain hown | ⟨p, hp, hrp⟩ := (h r).mp hr
    · exact ⟨.inl ⟨r, hown, hrf⟩, hbelow⟩
    · obtain ⟨o, ho⟩ := exists_firstOffset (List.ne_nil_of_mem hrp)
      have hle : o ≤ first := hrf ▸ (firstOffset_eq_ok_iff.mp ho).2 ⟨r, hrp, rfl⟩
      obtain rfl : o = first := Int32.le_antisymm hle (hbelow (.inr ⟨p, hp, ho⟩))
      exact ⟨.inr ⟨p, hp, ho⟩, hbelow⟩
  refine ⟨hleast, fun hl ↦ ?_⟩
  have hne : ranges part ≠ [] := by
    obtain ⟨r, hr, -⟩ | ⟨p, hp, ho⟩ := hl.1
    · exact List.ne_nil_of_mem ((h r).mpr (.inl hr))
    · obtain ⟨r, hr, -⟩ := (firstOffset_eq_ok_iff.mp ho).1
      exact List.ne_nil_of_mem ((h r).mpr (.inr ⟨p, hp, hr⟩))
  obtain ⟨first, hf⟩ := exists_firstOffset hne
  have hfirst := hleast hf
  rw [hf, Int32.le_antisymm (hfirst.2 hl.1) (hl.2 hfirst.1)]

/-- There is no first offset exactly where there is no own range and no part has one. -/
theorem firstOffset_eq_error_iff_of_parts :
    firstOffset part = .error .noRanges ↔
      (∀ r, r ∉ own) ∧ ∀ p ∈ parts, firstOffset p = .error .noRanges := by
  simp only [firstOffset_eq_error_iff, true_and, List.eq_nil_iff_forall_not_mem, h, not_or,
    not_exists, not_and, forall_and]
  exact and_congr_right fun _ ↦ ⟨fun hr p hp r ↦ hr r p hp, fun hp r p hmem ↦ hp p hmem r⟩

/-- The last offset is the greatest of those at which own ranges end, of those of the parts and of
that of the empty range, unless it lies before that of the empty range. -/
theorem isGreatest_lastOffset_iff_of_parts :
    IsGreatest (insert OffsetRange.empty.last
        ({o | ∃ r ∈ own, r.last = o} ∪ {o | ∃ p ∈ parts, lastOffset p = o})) (lastOffset part) ↔
      OffsetRange.empty.last ≤ lastOffset part := by
  refine ⟨fun hg ↦ hg.2 (.inl rfl), fun hle ↦ ?_⟩
  have hrange {r : OffsetRange} (hr : r ∈ ranges part) : r.last ≤ lastOffset part :=
    (isGreatest_lastOffset (List.ne_nil_of_mem hr)).2 ⟨r, hr, rfl⟩
  have habove : lastOffset part ∈ upperBounds (insert OffsetRange.empty.last
      ({o | ∃ r ∈ own, r.last = o} ∪ {o | ∃ p ∈ parts, lastOffset p = o})) := by
    rintro o (rfl | ⟨r, hr, rfl⟩ | ⟨p, hp, rfl⟩)
    · exact hle
    · exact hrange ((h r).mpr (.inl hr))
    · by_cases hnil : ranges p = []
      · exact lastOffset_of_nil hnil ▸ hle
      · obtain ⟨r, hr, hrl⟩ := (isGreatest_lastOffset hnil).1
        exact hrl ▸ hrange ((h r).mpr (.inr ⟨p, hp, hr⟩))
  by_cases hnil : ranges part = []
  · exact ⟨.inl (lastOffset_of_nil hnil), habove⟩
  · obtain ⟨r, hr, hrl⟩ := (isGreatest_lastOffset hnil).1
    obtain hown | ⟨p, hp, hrp⟩ := (h r).mp hr
    · exact ⟨.inr (.inl ⟨r, hown, hrl⟩), habove⟩
    · have hle' : lastOffset part ≤ lastOffset p :=
        hrl ▸ (isGreatest_lastOffset (List.ne_nil_of_mem hrp)).2 ⟨r, hrp, rfl⟩
      have hsame := Int32.le_antisymm (habove (.inr (.inr ⟨p, hp, rfl⟩))) hle'
      exact ⟨.inr (.inr ⟨p, hp, hsame⟩), habove⟩

end Compose

/-- A part whose ranges all end at the end of the empty range or behind it ends there or behind
it. -/
theorem le_lastOffset (h : ∀ r ∈ ranges part, OffsetRange.empty.last ≤ r.last) :
    OffsetRange.empty.last ≤ lastOffset part := by
  by_cases hnil : ranges part = []
  · rw [lastOffset_of_nil hnil]
    exact Int32.le_refl _
  · obtain ⟨r, hr, hrl⟩ := (isGreatest_lastOffset hnil).1
    exact hrl ▸ h r hr

end Part

end Cil
