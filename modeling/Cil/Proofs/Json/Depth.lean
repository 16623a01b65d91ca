import Cil.Json.Document

/-!
# Depth of values

How deeply arrays and objects are nested in a value. Clipping at that depth, or deeper, leaves
the value as it is: `Json.clip_eq_self`. A clipped value is readable when the value is and is nested
no deeper (`Json.isReadable_clip_iff`), and at any depth well formed when the value is
(`Json.isWellFormed_clip`).
-/

namespace Cil.Json

mutual

/-- The number of arrays and objects around the innermost place of a value. -/
def depth : Json → Nat
  | .array items => itemsDepth items + 1
  | .object members => membersDepth members + 1
  | .torn members _ => membersDepth members + 1
  | _ => 0

/-- The depth of the deepest item. -/
def itemsDepth : List Json → Nat
  | [] => 0
  | v :: rest => max (depth v) (itemsDepth rest)

/-- The depth of the deepest member. -/
def membersDepth : List (String × Json) → Nat
  | [] => 0
  | (_, v) :: rest => max (depth v) (membersDepth rest)

end

mutual

/-- Clipping a value at its depth does nothing. -/
theorem clip_eq_self {n : Nat} : {v : Json} → v.depth ≤ n → v.clip n = v
  | .array items, h => by
    rw [depth] at h
    obtain ⟨m, rfl⟩ : ∃ m, n = m + 1 := ⟨n - 1, by omega⟩
    rw [clip, clipItems_eq_self (by omega)]
  | .object members, h => by
    rw [depth] at h
    obtain ⟨m, rfl⟩ : ∃ m, n = m + 1 := ⟨n - 1, by omega⟩
    rw [clip, clipMembers_eq_self (by omega)]
  | .torn members rest, h => by
    rw [depth] at h
    obtain ⟨m, rfl⟩ : ∃ m, n = m + 1 := ⟨n - 1, by omega⟩
    rw [clip, clipMembers_eq_self (by omega)]
  | .null, _ => by cases n <;> rfl
  | .bool _, _ => by cases n <;> rfl
  | .number _, _ => by cases n <;> rfl
  | .string _, _ => by cases n <;> rfl
  | .flaw _, _ => by cases n <;> rfl

private theorem clipItems_eq_self {n : Nat} : {items : List Json} → itemsDepth items ≤ n →
    clipItems n items = items
  | [], _ => rfl
  | v :: rest, h => by
    rw [itemsDepth, Nat.max_le] at h
    rw [clipItems, clip_eq_self h.1, clipItems_eq_self h.2]

private theorem clipMembers_eq_self {n : Nat} : {members : List (String × Json)} →
    membersDepth members ≤ n → clipMembers n members = members
  | [], _ => rfl
  | (_, v) :: rest, h => by
    rw [membersDepth, Nat.max_le] at h
    rw [clipMembers, clip_eq_self h.1, clipMembers_eq_self h.2]

end

-- A flaw that is not among more flaws is not among fewer.
private theorem not_bad_mono {bad bad' : Flaw → Bool} (h : ∀ k, bad' k → bad k) (kind : Flaw)
    (hk : !bad kind) : !bad' kind := by
  cases hb : bad' kind with
  | false => rfl
  | true => simp [h kind hb] at hk

mutual

private theorem lacks_mono {bad bad' : Flaw → Bool} (h : ∀ k, bad' k → bad k) :
    (v : Json) → v.lacks bad → v.lacks bad'
  | .array items => by
    rw [lacks, lacks]
    exact itemsLack_mono h items
  | .object members => by
    rw [lacks, lacks]
    exact membersLack_mono h members
  | .torn members rest => by
    rw [lacks, lacks, Bool.and_eq_true, Bool.and_eq_true]
    exact And.imp (membersLack_mono h members) (not_bad_mono h rest)
  | .flaw kind => by
    rw [lacks, lacks]
    exact not_bad_mono h kind
  | .null => id
  | .bool _ => id
  | .number _ => id
  | .string _ => id

private theorem itemsLack_mono {bad bad' : Flaw → Bool} (h : ∀ k, bad' k → bad k) :
    (items : List Json) → itemsLack bad items → itemsLack bad' items
  | [] => id
  | v :: rest => by
    rw [itemsLack, itemsLack, Bool.and_eq_true, Bool.and_eq_true]
    exact And.imp (lacks_mono h v) (itemsLack_mono h rest)

private theorem membersLack_mono {bad bad' : Flaw → Bool} (h : ∀ k, bad' k → bad k) :
    (members : List (String × Json)) → membersLack bad members → membersLack bad' members
  | [] => id
  | (_, v) :: rest => by
    rw [membersLack, membersLack, Bool.and_eq_true, Bool.and_eq_true]
    exact And.imp (lacks_mono h v) (membersLack_mono h rest)

end

/-- What is readable is well formed. -/
theorem isWellFormed_of_isReadable {v : Json} (h : v.isReadable) : v.isWellFormed :=
  lacks_mono (fun _ _ ↦ rfl) v h

/-! ### What clipping leaves readable -/

/-- What is nested too deeply cannot be read. -/
@[simp] theorem isReadable_tooDeep (v : Json) : v.tooDeep.isReadable = false := rfl

private theorem isReadable_clip_of_depth_eq_zero {n : Nat} {v : Json} (h : v.depth = 0) :
    (v.clip n).isReadable ↔ v.isReadable ∧ v.depth ≤ n := by
  rw [clip_eq_self (by omega), h]
  simp

mutual

/-- A clipped value is readable when the value is and is nested no deeper. -/
theorem isReadable_clip_iff {n : Nat} :
    {v : Json} → (v.clip n).isReadable ↔ v.isReadable ∧ v.depth ≤ n
  | .array items => by
    cases n with
    | zero => simp [clip, depth]
    | succ n =>
      rw [clip, isReadable, lacks, itemsLack_clip_iff, isReadable, lacks, depth,
        Nat.succ_le_succ_iff]
  | .object members => by
    cases n with
    | zero => simp [clip, depth]
    | succ n =>
      rw [clip, isReadable, lacks, membersLack_clip_iff, isReadable, lacks, depth,
        Nat.succ_le_succ_iff]
  | .torn members rest => by
    have htorn (ms : List (String × Json)) : (torn ms rest).isReadable = false := by
      rw [isReadable, lacks, Bool.not_true, Bool.and_false]
    cases n with
    | zero => simp [clip, htorn]
    | succ n => simp [clip, htorn]
  | .null => isReadable_clip_of_depth_eq_zero rfl
  | .bool _ => isReadable_clip_of_depth_eq_zero rfl
  | .number _ => isReadable_clip_of_depth_eq_zero rfl
  | .string _ => isReadable_clip_of_depth_eq_zero rfl
  | .flaw _ => isReadable_clip_of_depth_eq_zero rfl

theorem itemsLack_clip_iff {n : Nat} : {items : List Json} →
    (itemsLack (fun _ ↦ true) (clipItems n items) ↔
      itemsLack (fun _ ↦ true) items ∧ itemsDepth items ≤ n)
  | [] => by simp [clipItems, itemsDepth]
  | v :: rest => by
    have hv := isReadable_clip_iff (n := n) (v := v)
    have hrest : itemsLack (fun _ ↦ true) (clipItems n rest) ↔ _ := itemsLack_clip_iff
    rw [isReadable, isReadable] at hv
    rw [clipItems, itemsLack, itemsLack, itemsDepth, Bool.and_eq_true, Bool.and_eq_true, hv, hrest,
      Nat.max_le]
    exact and_and_and_comm

theorem membersLack_clip_iff {n : Nat} : {members : List (String × Json)} →
    (membersLack (fun _ ↦ true) (clipMembers n members) ↔
      membersLack (fun _ ↦ true) members ∧ membersDepth members ≤ n)
  | [] => by simp [clipMembers, membersDepth]
  | (_, v) :: rest => by
    have hv := isReadable_clip_iff (n := n) (v := v)
    have hrest : membersLack (fun _ ↦ true) (clipMembers n rest) ↔ _ := membersLack_clip_iff
    rw [isReadable, isReadable] at hv
    rw [clipMembers, membersLack, membersLack, membersDepth, Bool.and_eq_true, Bool.and_eq_true,
      hv, hrest, Nat.max_le]
    exact and_and_and_comm

end

/-! ### What clipping leaves well formed -/

theorem isWellFormed_tooDeep (v : Json) : v.tooDeep.isWellFormed = v.isWellFormed := by
  rw [tooDeep]
  cases v.isWellFormed <;> rfl

mutual

/-- A clipped value is well formed when the value is. -/
theorem isWellFormed_clip (n : Nat) : (v : Json) → (v.clip n).isWellFormed = v.isWellFormed
  | .array items => by
    cases n with
    | zero => exact isWellFormed_tooDeep _
    | succ n =>
      rw [clip, isWellFormed, lacks, itemsLack_broken_clip, isWellFormed, lacks]
  | .object members => by
    cases n with
    | zero => exact isWellFormed_tooDeep _
    | succ n =>
      rw [clip, isWellFormed, lacks, membersLack_broken_clip, isWellFormed, lacks]
  | .torn members rest => by
    cases n with
    | zero => exact isWellFormed_tooDeep _
    | succ n =>
      rw [clip, isWellFormed, lacks, membersLack_broken_clip, isWellFormed, lacks]
  | .null => by rw [clip_eq_self (Nat.zero_le n)]
  | .bool _ => by rw [clip_eq_self (Nat.zero_le n)]
  | .number _ => by rw [clip_eq_self (Nat.zero_le n)]
  | .string _ => by rw [clip_eq_self (Nat.zero_le n)]
  | .flaw _ => by rw [clip_eq_self (Nat.zero_le n)]

theorem itemsLack_broken_clip (n : Nat) : (items : List Json) →
    itemsLack (· == .broken) (clipItems n items) = itemsLack (· == .broken) items
  | [] => rfl
  | v :: rest => by
    have hv : (v.clip n).lacks (· == .broken) = v.lacks (· == .broken) := isWellFormed_clip n v
    rw [clipItems, itemsLack, itemsLack, hv, itemsLack_broken_clip n rest]

theorem membersLack_broken_clip (n : Nat) : (members : List (String × Json)) →
    membersLack (· == .broken) (clipMembers n members) = membersLack (· == .broken) members
  | [] => rfl
  | (_, v) :: rest => by
    have hv : (v.clip n).lacks (· == .broken) = v.lacks (· == .broken) := isWellFormed_clip n v
    rw [clipMembers, membersLack, membersLack, hv, membersLack_broken_clip n rest]

end

/-- A clipped document is well formed when the document is. -/
theorem Document.isWellFormed_clip (n : Nat) (d : Document) :
    (d.clip n).isWellFormed = d.isWellFormed := by
  rw [isWellFormed, isWellFormed, clip, Json.isWellFormed_clip]

end Cil.Json
