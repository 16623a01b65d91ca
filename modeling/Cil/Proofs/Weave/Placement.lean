import Cil.Code.Weave

/-!
# Where a batch lands

A batch goes in item by item, and each item looks its anchor up in code that the items before it
have changed. What carries through is where the anchor then stands first: an item after it leaves
it there, an item before it moves it on, and one of its own identity takes its place. Main
statements: `Weaver.insert_of_firstAt`, which places every item of every batch, and
`Weaver.insert_in_order`.
-/

namespace Cil

namespace Code

/-- The anchor stands first at `found`, between `front` and `back`. -/
structure FirstAt (anchor : InstrId) (l front : List Instr) (found : Instr)
    (back : List Instr) : Prop where
  eq_append : l = front ++ found :: back
  id_eq : found.id = anchor
  id_ne : ∀ i ∈ front, i.id ≠ anchor

/-- Splitting finds the first place of the anchor. -/
theorem firstAt_iff {anchor : InstrId} {l front back : List Instr} {found : Instr} :
    FirstAt anchor l front found back ↔ splitAt? anchor l = some (front, found, back) := by
  rw [splitAt?_eq_some_iff]
  exact ⟨fun h ↦ ⟨h.eq_append, h.id_eq, h.id_ne⟩, fun ⟨hl, hid, hf⟩ ↦ ⟨hl, hid, hf⟩⟩

/-- An anchor that occurs has a first place. -/
theorem exists_firstAt {anchor : InstrId} {l : List Instr} (h : ∃ i ∈ l, i.id = anchor) :
    ∃ front found back, FirstAt anchor l front found back := by
  cases hs : splitAt? anchor l with
  | none =>
    obtain ⟨i, hi, hid⟩ := h
    exact absurd hid (splitAt?_eq_none_iff.mp hs i hi)
  | some split => exact ⟨split.1, split.2.1, split.2.2, firstAt_iff.mpr hs⟩

namespace FirstAt

variable {anchor : InstrId} {l front back : List Instr} {found : Instr}

/-- An insertion takes place where the anchor stands first. -/
theorem insert_eq {c : Code} (h : FirstAt anchor c.toList front found back) (side : Side)
    (i : Instr) : c.insert side anchor i = .ok ⟨side.place front found [i] back⟩ := by
  obtain ⟨l⟩ := c
  obtain ⟨rfl, rfl, hf⟩ := h
  exact insert_eq_ok hf

private theorem place_after (h : FirstAt anchor l front found back) (i : Instr) :
    FirstAt anchor (Side.after.place front found [i] back) front found (i :: back) :=
  ⟨rfl, h.id_eq, h.id_ne⟩

private theorem place_before (h : FirstAt anchor l front found back) {i : Instr}
    (hi : i.id ≠ anchor) :
    FirstAt anchor (Side.before.place front found [i] back) (front ++ [i]) found back := by
  refine ⟨by simp [Side.place], h.id_eq, ?_⟩
  intro x hx
  rcases List.mem_append.mp hx with hx | hx
  · exact h.id_ne x hx
  · rwa [List.mem_singleton.mp hx]

private theorem place_before_same (h : FirstAt anchor l front found back) {i : Instr}
    (hi : i.id = anchor) :
    FirstAt anchor (Side.before.place front found [i] back) front i (found :: back) :=
  ⟨rfl, hi, h.id_ne⟩

end FirstAt

/-- The order in which a batch stands next to its anchor in the end. Before the anchor the items
of its identity gather behind the others, the latest first. -/
def Side.arrange (side : Side) (anchor : InstrId) (batch : List Instr) : List Instr :=
  match side with
  | .before => batch.filter (·.id ≠ anchor) ++ (batch.filter (·.id = anchor)).reverse
  | .after => batch

private theorem Side.arrange_nil (side : Side) (anchor : InstrId) :
    side.arrange anchor [] = [] := by
  cases side <;> rfl

/-- A batch keeps its order where at most its last item has the identity of the anchor. -/
theorem Side.arrange_eq_self (side : Side) {anchor : InstrId} {batch : List Instr}
    (h : ∀ i ∈ batch.dropLast, i.id ≠ anchor) : side.arrange anchor batch = batch := by
  cases side with
  | after => rfl
  | before =>
    rcases List.eq_nil_or_concat batch with rfl | ⟨init, last, rfl⟩
    · rfl
    · rw [List.concat_eq_append, List.dropLast_concat] at h
      have hn : init.filter (·.id ≠ anchor) = init := by simpa using h
      have he : init.filter (·.id = anchor) = [] := by simpa using h
      rw [List.concat_eq_append, arrange, List.filter_append, List.filter_append, hn, he]
      by_cases hl : last.id = anchor
      · simp [hl]
      · simp [hl]

end Code

namespace Weaver

open Code (FirstAt Side)

variable {anchor : InstrId} {front back : List Instr} {found : Instr}

private theorem insertEach_cons {c : Code} (h : FirstAt anchor c.toList front found back)
    (side : Side) (i : Instr) (rest : List Instr) :
    insertEach side anchor (i :: rest) c =
      insertEach side anchor rest ⟨side.place front found [i] back⟩ := by
  rw [insertEach, h.insert_eq]

private theorem insertEach_after {c : Code} (items : List Instr)
    (h : FirstAt anchor c.toList front found back) :
    insertEach .after anchor items c = (.ok (), ⟨front ++ found :: (items.reverse ++ back)⟩) := by
  induction items generalizing c back with
  | nil => rw [insertEach, List.reverse_nil, List.nil_append, ← h.eq_append]
  | cons i rest ih =>
    calc insertEach .after anchor (i :: rest) c
      _ = insertEach .after anchor rest ⟨Side.after.place front found [i] back⟩ :=
        insertEach_cons h .after i rest
      _ = (.ok (), ⟨front ++ found :: (rest.reverse ++ i :: back)⟩) := ih (h.place_after i)
      _ = (.ok (), ⟨front ++ found :: ((i :: rest).reverse ++ back)⟩) := by simp

-- Once an item of the anchor's identity has gone in, it is the anchor that the rest goes before:
-- the induction is over all places of the anchor at once.
private theorem insertEach_before {c : Code} (items : List Instr)
    (h : FirstAt anchor c.toList front found back) :
    insertEach .before anchor items c =
      (.ok (), ⟨front ++ (Side.before.arrange anchor items ++ found :: back)⟩) := by
  induction items generalizing c front found back with
  | nil => rw [insertEach, Code.Side.arrange_nil, List.nil_append, ← h.eq_append]
  | cons i rest ih =>
    rw [insertEach_cons h]
    by_cases hi : i.id = anchor
    · calc insertEach .before anchor rest ⟨Side.before.place front found [i] back⟩
        _ = (.ok (), ⟨front ++ (Side.before.arrange anchor rest ++ i :: found :: back)⟩) :=
          ih (h.place_before_same hi)
        _ = _ := by simp [Side.arrange, hi]
    · calc insertEach .before anchor rest ⟨Side.before.place front found [i] back⟩
        _ = (.ok (), ⟨front ++ [i] ++ (Side.before.arrange anchor rest ++ found :: back)⟩) :=
          ih (h.place_before hi)
        _ = _ := by simp [Side.arrange, hi]

/-- Every item of a batch goes in, and the batch stands in its final order next to the anchor. -/
theorem insertEach_of_firstAt {c : Code} (h : FirstAt anchor c.toList front found back)
    (side : Side) (batch : List Instr) :
    insertEach side anchor (feed side batch) c =
      (.ok (), ⟨side.place front found (side.arrange anchor batch) back⟩) := by
  cases side with
  | before => exact insertEach_before batch h
  | after =>
    rw [feed, insertEach_after _ h, List.reverse_reverse]
    rfl

/-- A batch next to an anchor that is there goes in as a whole and is told of once. -/
theorem insert_of_firstAt {w : Weaver} (h : FirstAt anchor w.code.toList front found back)
    (side : Side) (batch : List Instr) :
    w.insert side anchor batch = (.ok (), { w with
      code := w.settle ⟨side.place front found (side.arrange anchor batch) back⟩
      log := w.log ++ [.inserted batch.length side anchor] }) := by
  rw [insert, insertEach_of_firstAt h]

/-- After an anchor every batch stands in its own order directly behind it; before an anchor it
stands in its own order directly in front of it if no item but the last has the anchor's
identity. Nothing else moves, and only laying out anew changes an offset. -/
theorem insert_in_order {w : Weaver} (h : FirstAt anchor w.code.toList front found back)
    (batch : List Instr) :
    w.insert .after anchor batch = (.ok (), { w with
      code := w.settle ⟨front ++ [found] ++ batch ++ back⟩
      log := w.log ++ [.inserted batch.length .after anchor] }) ∧
    ((∀ i ∈ batch.dropLast, i.id ≠ anchor) →
      w.insert .before anchor batch = (.ok (), { w with
        code := w.settle ⟨front ++ batch ++ [found] ++ back⟩
        log := w.log ++ [.inserted batch.length .before anchor] })) := by
  constructor
  · rw [insert_of_firstAt h]
    simp [Side.place, Side.arrange]
  · intro hb
    rw [insert_of_firstAt h, Side.arrange_eq_self .before hb]
    simp [Side.place]

/-- The identity of the anchor occurs twice in the code, and once more at the end of the batch. -/
theorem insert_in_order_repeated :
    FirstAt ⟨2⟩ [⟨⟨1⟩, 0, .nop⟩, ⟨⟨2⟩, 1, .ret⟩, ⟨⟨2⟩, 2, .pop⟩] [⟨⟨1⟩, 0, .nop⟩] ⟨⟨2⟩, 1, .ret⟩
      [⟨⟨2⟩, 2, .pop⟩] ∧
    (∀ i ∈ [(⟨⟨3⟩, 0, .dup⟩ : Instr), ⟨⟨2⟩, 7, .ldcI4 500⟩].dropLast, i.id ≠ ⟨2⟩) ∧
    insert .before ⟨2⟩ [⟨⟨3⟩, 0, .dup⟩, ⟨⟨2⟩, 7, .ldcI4 500⟩]
        ⟨⟨[⟨⟨1⟩, 0, .nop⟩, ⟨⟨2⟩, 1, .ret⟩, ⟨⟨2⟩, 2, .pop⟩]⟩, true, []⟩ =
      (.ok (), ⟨⟨[⟨⟨1⟩, 0, .nop⟩, ⟨⟨3⟩, 1, .dup⟩, ⟨⟨2⟩, 2, .ldcI4 500⟩, ⟨⟨2⟩, 7, .ret⟩,
        ⟨⟨2⟩, 8, .pop⟩]⟩, true, [.inserted 2 .before ⟨2⟩]⟩) := by
  have h : FirstAt ⟨2⟩ [⟨⟨1⟩, 0, .nop⟩, ⟨⟨2⟩, 1, .ret⟩, ⟨⟨2⟩, 2, .pop⟩] [⟨⟨1⟩, 0, .nop⟩]
      ⟨⟨2⟩, 1, .ret⟩ [⟨⟨2⟩, 2, .pop⟩] := ⟨rfl, rfl, by decide⟩
  have hb : ∀ i ∈ [(⟨⟨3⟩, 0, .dup⟩ : Instr), ⟨⟨2⟩, 7, .ldcI4 500⟩].dropLast, i.id ≠ ⟨2⟩ := by
    decide
  refine ⟨h, hb, ?_⟩
  rw [(insert_in_order h _).2 hb]
  rfl

end Weaver

end Cil
