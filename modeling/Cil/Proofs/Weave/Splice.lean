import Cil.Proofs.Code.Layout
import Cil.Proofs.Weave.Atomicity

/-!
# Splicing next to an anchor

What a successful insertion does to the instructions, as one function of them: the items stand
next to the first place of the anchor, and where the anchor is missing nothing changes. The
function is defined for both sides at once, so that its laws need no case for each side:
`Code.surround_surround` for one anchor and `Code.surround_comm` for two. Main statements:
`Code.sublist_splice` and `Code.splice_perm` say that a splice adds its items and does nothing
else, `Code.map_splice` that it looks at identities alone.
-/

namespace Cil

namespace Code

/-- Puts some items ahead of the first place of an anchor and some behind it. -/
def surround (anchor : InstrId) (ahead behind : List Instr) : List Instr → List Instr
  | [] => []
  | i :: rest =>
    if i.id = anchor then ahead ++ i :: (behind ++ rest) else i :: surround anchor ahead behind rest

section

variable {anchor : InstrId} {ahead behind l : List Instr}

private theorem surround_cons_self {i : Instr} (h : i.id = anchor) (rest : List Instr) :
    surround anchor ahead behind (i :: rest) = ahead ++ i :: (behind ++ rest) := by
  rw [surround, if_pos h]

private theorem surround_cons_of_ne {i : Instr} (h : i.id ≠ anchor) (rest : List Instr) :
    surround anchor ahead behind (i :: rest) = i :: surround anchor ahead behind rest := by
  rw [surround, if_neg h]

private theorem surround_append {front : List Instr} (h : ∀ i ∈ front, i.id ≠ anchor)
    (back : List Instr) :
    surround anchor ahead behind (front ++ back) = front ++ surround anchor ahead behind back := by
  induction front with
  | nil => rfl
  | cons i front ih =>
    rw [List.forall_mem_cons] at h
    rw [List.cons_append, surround_cons_of_ne h.1, ih h.2, List.cons_append]

private theorem surround_of_absent (h : ∀ i ∈ l, i.id ≠ anchor) :
    surround anchor ahead behind l = l := by
  have hl : surround anchor ahead behind (l ++ []) = l ++ surround anchor ahead behind [] :=
    surround_append h []
  rwa [surround, List.append_nil] at hl

private theorem sublist_surround : l.Sublist (surround anchor ahead behind l) := by
  induction l with
  | nil => exact List.Sublist.refl []
  | cons i rest ih =>
    rw [surround]
    split
    · have hb : (i :: rest).Sublist (i :: (behind ++ rest)) :=
        (List.sublist_append_right behind rest).cons_cons i
      exact hb.trans (List.sublist_append_right ahead _)
    · exact ih.cons_cons i

private theorem map_surround {f : Instr → Instr} (hf : ∀ i, (f i).id = i.id) :
    (surround anchor ahead behind l).map f =
      surround anchor (ahead.map f) (behind.map f) (l.map f) := by
  induction l with
  | nil => rfl
  | cons i rest ih =>
    rw [surround, List.map_cons, surround, hf]
    split
    · rw [List.map_append, List.map_cons, List.map_append]
    · rw [List.map_cons, ih]

/-- Around one anchor, what comes later stands closer to it. -/
theorem surround_surround (h : ∀ i ∈ ahead, i.id ≠ anchor) (ahead' behind' l : List Instr) :
    surround anchor ahead' behind' (surround anchor ahead behind l) =
      surround anchor (ahead ++ ahead') (behind' ++ behind) l := by
  induction l with
  | nil => rfl
  | cons i rest ih =>
    by_cases hi : i.id = anchor
    · calc surround anchor ahead' behind' (surround anchor ahead behind (i :: rest))
        _ = surround anchor ahead' behind' (ahead ++ i :: (behind ++ rest)) := by
          rw [surround_cons_self hi]
        _ = ahead ++ surround anchor ahead' behind' (i :: (behind ++ rest)) := surround_append h _
        _ = ahead ++ (ahead' ++ i :: (behind' ++ (behind ++ rest))) := by
          rw [surround_cons_self hi]
        _ = surround anchor (ahead ++ ahead') (behind' ++ behind) (i :: rest) := by
          rw [surround_cons_self hi, List.append_assoc, List.append_assoc]
    · rw [surround_cons_of_ne hi, surround_cons_of_ne hi, surround_cons_of_ne hi, ih]

end

section

variable {a b : InstrId} {ahead behind ahead' behind' : List Instr}

-- What one anchor has around it, the search for another one passes over.
private theorem surround_around {i : Instr} (hi : i.id ≠ b) (ha : ∀ x ∈ ahead, x.id ≠ b)
    (hb : ∀ x ∈ behind, x.id ≠ b) (rest : List Instr) :
    surround b ahead' behind' (ahead ++ i :: (behind ++ rest)) =
      ahead ++ i :: (behind ++ surround b ahead' behind' rest) := by
  rw [surround_append ha, surround_cons_of_ne hi, surround_append hb]

/-- What is put around two anchors can be put there in either order. -/
theorem surround_comm (hab : a ≠ b) (h : ∀ i ∈ ahead ++ behind, i.id ≠ b)
    (h' : ∀ i ∈ ahead' ++ behind', i.id ≠ a) (l : List Instr) :
    surround b ahead' behind' (surround a ahead behind l) =
      surround a ahead behind (surround b ahead' behind' l) := by
  rw [List.forall_mem_append] at h h'
  induction l with
  | nil => rfl
  | cons i rest ih =>
    by_cases ha : i.id = a
    · have hb : i.id ≠ b := ha ▸ hab
      calc surround b ahead' behind' (surround a ahead behind (i :: rest))
        _ = surround b ahead' behind' (ahead ++ i :: (behind ++ rest)) := by
          rw [surround_cons_self ha]
        _ = ahead ++ i :: (behind ++ surround b ahead' behind' rest) :=
          surround_around hb h.1 h.2 rest
        _ = surround a ahead behind (i :: surround b ahead' behind' rest) := by
          rw [surround_cons_self ha]
        _ = surround a ahead behind (surround b ahead' behind' (i :: rest)) := by
          rw [surround_cons_of_ne hb]
    · by_cases hb : i.id = b
      · calc surround b ahead' behind' (surround a ahead behind (i :: rest))
          _ = surround b ahead' behind' (i :: surround a ahead behind rest) := by
            rw [surround_cons_of_ne ha]
          _ = ahead' ++ i :: (behind' ++ surround a ahead behind rest) := by
            rw [surround_cons_self hb]
          _ = surround a ahead behind (ahead' ++ i :: (behind' ++ rest)) :=
            (surround_around ha h'.1 h'.2 rest).symm
          _ = surround a ahead behind (surround b ahead' behind' (i :: rest)) := by
            rw [surround_cons_self hb]
      · rw [surround_cons_of_ne ha, surround_cons_of_ne hb, surround_cons_of_ne hb,
          surround_cons_of_ne ha, ih]

end

/-! ### One side -/

namespace Side

/-- The items that go ahead of the anchor. -/
def ahead (side : Side) (items : List Instr) : List Instr :=
  match side with
  | .before => items
  | .after => []

/-- The items that go behind the anchor. -/
def behind (side : Side) (items : List Instr) : List Instr :=
  match side with
  | .before => []
  | .after => items

private theorem ahead_append_behind (side : Side) (items : List Instr) :
    side.ahead items ++ side.behind items = items := by
  cases side with
  | before => exact List.append_nil items
  | after => rfl

end Side

/-- Puts items next to the first place of an anchor, on one side. -/
def splice (side : Side) (anchor : InstrId) (items l : List Instr) : List Instr :=
  surround anchor (side.ahead items) (side.behind items) l

variable {side : Side} {anchor : InstrId} {items l : List Instr}

/-- A splice takes place where the anchor stands first. -/
theorem splice_of_firstAt {front back : List Instr} {found : Instr}
    (h : FirstAt anchor l front found back) :
    splice side anchor items l = side.place front found items back := by
  rw [splice, h.eq_append, surround_append h.id_ne, surround_cons_self h.id_eq]
  cases side <;> rfl

/-- Without its anchor a splice changes nothing. -/
theorem splice_of_absent (h : ∀ i ∈ l, i.id ≠ anchor) : splice side anchor items l = l :=
  surround_of_absent h

/-- A splice leaves what is there, in its order. -/
theorem sublist_splice : l.Sublist (splice side anchor items l) := sublist_surround

/-- A splice next to an anchor that is there adds its items, each as often as it is given. -/
theorem splice_perm (h : ∃ i ∈ l, i.id = anchor) :
    (splice side anchor items l).Perm (l ++ items) := by
  obtain ⟨front, found, back, hf⟩ := exists_firstAt h
  rw [splice_of_firstAt hf, hf.eq_append]
  exact side.place_perm front found items back

/-- A splice looks at identities alone. -/
theorem map_splice {f : Instr → Instr} (hf : ∀ i, (f i).id = i.id) :
    (splice side anchor items l).map f = splice side anchor (items.map f) (l.map f) := by
  rw [splice, map_surround hf]
  cases side <;> rfl

/-! ### Two splices -/

section

variable {side' : Side} {a b : InstrId} {items' : List Instr}

/-- Two splices next to one anchor put their items around it. -/
theorem splice_splice (h : ∀ i ∈ items, i.id ≠ a) (l : List Instr) :
    splice side' a items' (splice side a items l) =
      surround a (side.ahead items ++ side'.ahead items') (side'.behind items' ++ side.behind items)
        l := by
  have ha : ∀ i ∈ side.ahead items, i.id ≠ a := by
    intro i hi
    apply h
    rw [← side.ahead_append_behind items]
    exact List.mem_append_left _ hi
  exact surround_surround ha _ _ l

/-- Before one anchor, the later items stand behind the earlier ones. -/
theorem splice_before_before (h : ∀ i ∈ items, i.id ≠ a) (l : List Instr) :
    splice .before a items' (splice .before a items l) = splice .before a (items ++ items') l :=
  splice_splice h l

/-- After one anchor, the later items stand in front of the earlier ones. -/
theorem splice_after_after (h : ∀ i ∈ items, i.id ≠ a) (l : List Instr) :
    splice .after a items' (splice .after a items l) = splice .after a (items' ++ items) l :=
  splice_splice h l

private theorem splice_before_after (h : ∀ i ∈ items, i.id ≠ a) (h' : ∀ i ∈ items', i.id ≠ a)
    (l : List Instr) :
    splice .after a items' (splice .before a items l) =
      splice .before a items (splice .after a items' l) := by
  rw [splice_splice h, splice_splice h']
  simp only [Side.ahead, Side.behind, List.append_nil, List.nil_append]

/-- Splices next to different anchors, or on different sides of one, can trade places. -/
theorem splice_comm (hp : a ≠ b ∨ side ≠ side') (h : ∀ i ∈ items, i.id ≠ a ∧ i.id ≠ b)
    (h' : ∀ i ∈ items', i.id ≠ a ∧ i.id ≠ b) (l : List Instr) :
    splice side' b items' (splice side a items l) =
      splice side a items (splice side' b items' l) := by
  by_cases hab : a = b
  · subst hab
    have hs : side ≠ side' := hp.resolve_left fun hn ↦ hn rfl
    have ha : ∀ i ∈ items, i.id ≠ a := fun i hi ↦ (h i hi).1
    have ha' : ∀ i ∈ items', i.id ≠ a := fun i hi ↦ (h' i hi).1
    match side, side' with
    | .before, .before => exact absurd rfl hs
    | .before, .after => exact splice_before_after ha ha' l
    | .after, .before => exact (splice_before_after ha' ha l).symm
    | .after, .after => exact absurd rfl hs
  · apply surround_comm hab
    · rw [side.ahead_append_behind]
      exact fun i hi ↦ (h i hi).2
    · rw [side'.ahead_append_behind]
      exact fun i hi ↦ (h' i hi).1

end

end Code

end Cil
