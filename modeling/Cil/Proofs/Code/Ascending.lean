import Cil.Proofs.Code.Lookup

/-!
# Lookups in ascending code

Where offsets ascend strictly, the instructions below an offset are the first ones and those above
it the last ones. So a lookup by offset goes by position there: the instruction at an offset and
the one before it are neighbours, and a range cuts one block out of the sequence. Main statement:
`Code.Ascending.lookups_positional`.
-/

namespace Cil.Code

/-- The offsets of a sequence ascend strictly. -/
def Ascending (l : List Instr) : Prop := l.Pairwise fun i j ↦ i.offset < j.offset

/-- The instructions below an offset, in order. -/
def below (offset : Int32) (l : List Instr) : List Instr := l.filter (·.offset < offset)

/-- The instructions above an offset, in order. -/
def above (offset : Int32) (l : List Instr) : List Instr := l.filter (offset < ·.offset)

/-- In any sequence, what is found before an offset is the last of what lies below it. -/
theorem beforeOffset_eq_getLast? (offset : Int32) (l : List Instr) :
    beforeOffset offset l = match (below offset l).getLast? with
      | some i => .ok i
      | none => .error (.noInstruction .before offset) := by
  rw [below, List.getLast?_filter]
  rfl

-- A test that is passed by all that stands before what passes it cuts a sequence in two.
private theorem filter_append_filter_rest {p : Instr → Bool} {l : List Instr}
    (h : l.Pairwise fun i j ↦ p j → p i) : l.filter p ++ l.filter (!p ·) = l := by
  induction l with
  | nil => rfl
  | cons i rest ih =>
    obtain ⟨hi, hrest⟩ := List.pairwise_cons.mp h
    by_cases hp : p i
    · rw [List.filter_cons_of_pos hp, List.filter_cons_of_neg (by simp [hp]), List.cons_append,
        ih hrest]
    · have hnone : ∀ j ∈ rest, ¬ p j := fun j hj hpj ↦ hp (hi j hj hpj)
      have hall : ∀ j ∈ i :: rest, (!p j) = true := by simpa [hp] using hnone
      rw [List.filter_cons_of_neg hp, List.filter_eq_nil_iff.mpr hnone,
        List.filter_eq_self.mpr hall, List.nil_append]

namespace Ascending

variable {l front back : List Instr} {i : Instr}

private theorem below_append (h : Ascending (front ++ i :: back)) :
    below i.offset (front ++ i :: back) = front := by
  obtain ⟨-, hback, hfront⟩ := List.pairwise_append.mp h
  have hi : ∀ j ∈ back, i.offset < j.offset := (List.pairwise_cons.mp hback).1
  have hlow : ∀ j ∈ front, decide (j.offset < i.offset) = true := fun j hj ↦
    decide_eq_true (hfront j hj i List.mem_cons_self)
  have hhigh : ∀ j ∈ i :: back, ¬ decide (j.offset < i.offset) = true := by
    intro j hj
    rw [decide_eq_true_iff]
    rcases List.mem_cons.mp hj with rfl | hj
    · exact Int32.lt_irrefl
    · exact Int32.lt_asymm (hi j hj)
  rw [below, List.filter_append, List.filter_eq_self.mpr hlow, List.filter_eq_nil_iff.mpr hhigh,
    List.append_nil]

private theorem atOffset_of_mem (h : Ascending l) (hi : i ∈ l) : atOffset i.offset l = .ok i := by
  obtain ⟨front, back, rfl⟩ := List.append_of_mem hi
  have hfront : ∀ j ∈ front, j.offset ≠ i.offset := fun j hj ↦
    Int32.ne_of_lt ((List.pairwise_append.mp h).2.2 j hj i List.mem_cons_self)
  have hnone : front.find? (fun j ↦ j.offset == i.offset) = none := by
    simpa using hfront
  have hself : (i :: back).find? (fun j ↦ j.offset == i.offset) = some i :=
    List.find?_cons_of_pos (beq_self_eq_true i.offset)
  rw [atOffset, List.find?_append, hnone, hself]
  rfl

private theorem below_eq_take (h : Ascending l) {k : Nat} (hk : l[k]? = some i) :
    below i.offset l = l.take k := by
  obtain ⟨hlt, rfl⟩ := List.getElem?_eq_some_iff.mp hk
  have hl : l = l.take k ++ l[k] :: l.drop (k + 1) := by
    rw [← List.drop_eq_getElem_cons hlt, List.take_append_drop]
  rw [hl] at h
  calc below l[k].offset l
    _ = below l[k].offset (l.take k ++ l[k] :: l.drop (k + 1)) := by rw [← hl]
    _ = l.take k := h.below_append

private theorem eq_below_append_within_append_above (h : Ascending l) {a b : Int32} (hab : a ≤ b) :
    l = below a l ++ within ⟨a, b⟩ l ++ above b l := by
  have hlow : l.Pairwise fun i j ↦ decide (j.offset < a) → decide (i.offset < a) := by
    apply h.imp
    intro i j hij
    rw [decide_eq_true_iff, decide_eq_true_iff]
    exact Int32.lt_trans hij
  let rest := l.filter fun i ↦ !decide (i.offset < a)
  have hhigh : rest.Pairwise fun i j ↦ decide (j.offset ≤ b) → decide (i.offset ≤ b) := by
    apply (h.sublist List.filter_sublist).imp
    intro i j hij
    rw [decide_eq_true_iff, decide_eq_true_iff]
    exact fun hj ↦ Int32.le_trans (Int32.le_of_lt hij) hj
  have hwithin : rest.filter (·.offset ≤ b) = within ⟨a, b⟩ l := by
    rw [within_eq_filter, List.filter_filter]
    apply List.filter_congr
    intro i _
    rw [Bool.eq_iff_iff]
    simp [Int32.not_lt, and_comm]
  have habove : rest.filter (fun i ↦ !decide (i.offset ≤ b)) = above b l := by
    rw [above, List.filter_filter]
    apply List.filter_congr
    intro i _
    have hle : b < i.offset → a ≤ i.offset := fun hb ↦
      Int32.le_trans hab (Int32.le_of_lt hb)
    rw [Bool.eq_iff_iff]
    simpa [Int32.not_lt, Int32.not_le] using hle
  rw [List.append_assoc, ← hwithin, ← habove, filter_append_filter_rest hhigh]
  exact (filter_append_filter_rest hlow).symm

/-- Where offsets ascend strictly, the instruction at each index is found at its own offset, and
before that offset the one at the index before is found, or none if it is the first. A range cuts
one block out of the sequence: before it stand the instructions below the range, the last of which
is the one found before the begin of the range, if there are any, and behind it those above. -/
theorem lookups_positional (h : Ascending l) :
    (∀ (k : Nat) i, l[k]? = some i → atOffset i.offset l = .ok i) ∧
    (∀ i, l[0]? = some i →
      beforeOffset i.offset l = .error (.noInstruction .before i.offset)) ∧
    (∀ (k : Nat) i j, l[k]? = some i → l[k + 1]? = some j → beforeOffset j.offset l = .ok i) ∧
    ∀ a b, a ≤ b →
      l = below a l ++ within ⟨a, b⟩ l ++ above b l ∧
      (∀ i, (below a l).getLast? = some i → beforeOffset a l = .ok i) ∧
      (below a l = [] → beforeOffset a l = .error (.noInstruction .before a)) := by
  refine ⟨fun k i hk ↦ h.atOffset_of_mem (List.mem_of_getElem? hk), fun i hi ↦ ?first,
    fun k i j hi hj ↦ ?next, fun a b hab ↦ ⟨h.eq_below_append_within_append_above hab, ?_, ?_⟩⟩
  case first =>
    rw [beforeOffset_eq_getLast?, h.below_eq_take hi]
    rfl
  case next =>
    have hlast : (l.take (k + 1)).getLast? = some i := by
      rw [List.getLast?_take, if_neg (Nat.succ_ne_zero k), Nat.add_sub_cancel, hi, Option.some_or]
    rw [beforeOffset_eq_getLast?, h.below_eq_take hj, hlast]
  · intro i hi
    rw [beforeOffset_eq_getLast?, hi]
  · intro hnil
    rw [beforeOffset_eq_getLast?, hnil]
    rfl

/-- A range that begins and ends in gaps, with an instruction on either side of it. -/
theorem lookups_positional_gaps :
    let l : List Instr := [⟨⟨4⟩, -7, .dup⟩, ⟨⟨2⟩, 0, .nop⟩, ⟨⟨9⟩, 5, .pop⟩, ⟨⟨1⟩, 8, .ret⟩]
    Ascending l ∧ (-3 : Int32) ≤ 6 ∧
    l = below (-3) l ++ within ⟨-3, 6⟩ l ++ above 6 l ∧
    beforeOffset (-3) l = .ok ⟨⟨4⟩, -7, .dup⟩ ∧ beforeOffset 8 l = .ok ⟨⟨9⟩, 5, .pop⟩ := by
  intro l
  have h : Ascending l := by unfold Ascending; decide
  have hab : (-3 : Int32) ≤ 6 := by decide
  obtain ⟨-, -, hnext, hrange⟩ := lookups_positional h
  obtain ⟨hcut, hlast, -⟩ := hrange (-3) 6 hab
  exact ⟨h, hab, hcut, hlast _ rfl, hnext 2 _ _ rfl rfl⟩

end Ascending

end Cil.Code
