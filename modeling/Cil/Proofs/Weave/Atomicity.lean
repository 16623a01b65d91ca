import Cil.Proofs.Code.Layout
import Cil.Proofs.Weave.Placement

/-!
# A batch goes in as a whole or not at all

No insertion loses its anchor, so a batch can fail only at its first item, and then nothing has
happened yet. Main statements: `Weaver.insert_all_or_nothing`, and
`Weaver.insert_absent_iff_ne_nil`, which says when a missing anchor is reported: an empty batch
never looks for it.
-/

namespace Cil

namespace Code.Side

/-- Next to its anchor a batch has its own items and no others. -/
theorem arrange_perm (side : Side) (anchor : InstrId) (batch : List Instr) :
    (side.arrange anchor batch).Perm batch := by
  cases side with
  | after => exact List.Perm.refl batch
  | before =>
    have hc : batch.filter (·.id = anchor) = batch.filter fun i ↦ !decide (i.id ≠ anchor) := by
      simp
    calc (batch.filter (·.id ≠ anchor) ++ (batch.filter (·.id = anchor)).reverse).Perm
          (batch.filter (·.id ≠ anchor) ++ batch.filter (·.id = anchor)) :=
          (List.reverse_perm _).append_left _
      _ = batch.filter (·.id ≠ anchor) ++ batch.filter fun i ↦ !decide (i.id ≠ anchor) := by
          rw [hc]
      List.Perm _ batch := List.filter_append_perm _ batch

/-- Placing items adds them to what is there. -/
theorem place_perm (side : Side) (front : List Instr) (found : Instr) (items back : List Instr) :
    (side.place front found items back).Perm (front ++ found :: back ++ items) := by
  rw [List.append_assoc, List.cons_append]
  cases side with
  | before =>
    rw [place, ← List.cons_append]
    exact List.perm_append_comm.append_left front
  | after => exact (List.perm_append_comm.cons found).append_left front

end Code.Side

namespace Weaver

open Code (FirstAt Side)

variable {w : Weaver} {anchor : InstrId}

/-- Without its anchor no item of a batch goes in. -/
theorem insert_of_absent (h : ∀ i ∈ w.code.toList, i.id ≠ anchor) (side : Side)
    {batch : List Instr} (hb : batch ≠ []) :
    w.insert side anchor batch = (.error (.noAnchor anchor.val), w) := by
  have hf : feed side batch ≠ [] := by
    cases side with
    | before => exact hb
    | after => exact fun he ↦ hb (List.reverse_eq_nil_iff.mp he)
  obtain ⟨i, rest, hi⟩ := List.exists_cons_of_ne_nil hf
  have he : w.code.insert side anchor i = .error (.noAnchor anchor.val) :=
    Code.insert_eq_error_iff.mpr ⟨rfl, h⟩
  rw [insert, hi, insertEach, he]

private theorem insert_nil (w : Weaver) (side : Side) (anchor : InstrId) :
    w.insert side anchor [] = (.ok (), { w with
      code := w.settle w.code
      log := w.log ++ [.inserted 0 side anchor] }) := by
  cases side <;> rfl

/-- A batch goes in next to its anchor, or is empty without it, or is refused. -/
theorem insert_cases (w : Weaver) (side : Side) (anchor : InstrId) (batch : List Instr) :
    (∃ front found back, FirstAt anchor w.code.toList front found back ∧
      w.insert side anchor batch = (.ok (), { w with
        code := w.settle ⟨side.place front found (side.arrange anchor batch) back⟩
        log := w.log ++ [.inserted batch.length side anchor] })) ∨
    ((∀ i ∈ w.code.toList, i.id ≠ anchor) ∧ batch = [] ∧
      w.insert side anchor batch = (.ok (), { w with
        code := w.settle w.code
        log := w.log ++ [.inserted 0 side anchor] })) ∨
    ((∀ i ∈ w.code.toList, i.id ≠ anchor) ∧ batch ≠ [] ∧
      w.insert side anchor batch = (.error (.noAnchor anchor.val), w)) := by
  by_cases ho : ∃ i ∈ w.code.toList, i.id = anchor
  · obtain ⟨front, found, back, h⟩ := Code.exists_firstAt ho
    exact .inl ⟨front, found, back, h, insert_of_firstAt h side batch⟩
  · have h : ∀ i ∈ w.code.toList, i.id ≠ anchor := fun i hi hid ↦ ho ⟨i, hi, hid⟩
    by_cases hb : batch = []
    · exact .inr (.inl ⟨h, hb, hb ▸ insert_nil w side anchor⟩)
    · exact .inr (.inr ⟨h, hb, insert_of_absent h side hb⟩)

/-- With its anchor there, a batch of any kind goes in with all of its items and is told of in one
line; a failure reports that the anchor is missing, which it is, and leaves everything as it was. -/
theorem insert_all_or_nothing (w : Weaver) (side : Side) (anchor : InstrId)
    (batch : List Instr) :
    ((∃ i ∈ w.code.toList, i.id = anchor) →
      (w.insert side anchor batch).1 = .ok () ∧
      (w.insert side anchor batch).2.log = w.log ++ [.inserted batch.length side anchor] ∧
      (LogEvent.inserted batch.length side anchor).level = "DEBUG" ∧
      ((w.insert side anchor batch).2.code.toList.map Instr.unplaced).Perm
        ((w.code.toList ++ batch).map Instr.unplaced)) ∧
    ∀ e, (w.insert side anchor batch).1 = .error e →
      e = .noAnchor anchor.val ∧ (∀ i ∈ w.code.toList, i.id ≠ anchor) ∧
      (w.insert side anchor batch).2 = w := by
  constructor
  · intro ho
    obtain ⟨front, found, back, h⟩ := Code.exists_firstAt ho
    rw [insert_of_firstAt h]
    refine ⟨rfl, rfl, rfl, ?_⟩
    dsimp only
    rw [map_unplaced_settle, h.eq_append]
    apply List.Perm.map
    exact (side.place_perm front found _ back).trans
      ((side.arrange_perm anchor batch).append_left (front ++ found :: back))
  · intro e he
    obtain ⟨_, _, _, -, hi⟩ | ⟨-, -, hi⟩ | ⟨h, -, hi⟩ := insert_cases w side anchor batch
    · rw [hi] at he
      cases he
    · rw [hi] at he
      cases he
    · rw [hi] at he ⊢
      cases he
      exact ⟨rfl, h, rfl⟩

/-- An item of the anchor's own identity changes neither outcome. -/
theorem insert_all_or_nothing_own :
    (insert .before ⟨1⟩ [⟨⟨1⟩, 7, .dup⟩, ⟨⟨3⟩, 0, .pop⟩] ⟨⟨[⟨⟨1⟩, 5, .nop⟩]⟩, true, []⟩).1 =
      .ok () ∧
    (insert .before ⟨2⟩ [⟨⟨2⟩, 7, .dup⟩, ⟨⟨3⟩, 0, .pop⟩] ⟨⟨[⟨⟨1⟩, 5, .nop⟩]⟩, true, []⟩).2 =
      ⟨⟨[⟨⟨1⟩, 5, .nop⟩]⟩, true, []⟩ := by
  have ho : ∃ i ∈ [(⟨⟨1⟩, 5, .nop⟩ : Instr)], i.id = ⟨1⟩ := ⟨_, List.mem_singleton_self _, rfl⟩
  constructor
  · exact ((insert_all_or_nothing ⟨⟨[⟨⟨1⟩, 5, .nop⟩]⟩, true, []⟩ .before ⟨1⟩ _).1 ho).1
  · exact ((insert_all_or_nothing ⟨⟨[⟨⟨1⟩, 5, .nop⟩]⟩, true, []⟩ .before ⟨2⟩ _).2 _ rfl).2.2

/-- A missing anchor is reported, and nothing is changed, exactly when there is something to
insert. -/
theorem insert_absent_iff_ne_nil (h : ∀ i ∈ w.code.toList, i.id ≠ anchor) (side : Side)
    (batch : List Instr) :
    w.insert side anchor batch = (.error (.noAnchor anchor.val), w) ↔ batch ≠ [] := by
  constructor
  · rintro he rfl
    rw [insert_nil] at he
    cases he
  · exact insert_of_absent h side

/-- Code without the anchor, where a batch would also be laid out. -/
theorem insert_absent_laid_out :
    (∀ i ∈ [(⟨⟨1⟩, 5, .nop⟩ : Instr), ⟨⟨3⟩, 5, .ret⟩], i.id ≠ ⟨2⟩) ∧
    insert .after ⟨2⟩ [⟨⟨2⟩, 0, .dup⟩] ⟨⟨[⟨⟨1⟩, 5, .nop⟩, ⟨⟨3⟩, 5, .ret⟩]⟩, true, []⟩ =
      (.error (.noAnchor 2), ⟨⟨[⟨⟨1⟩, 5, .nop⟩, ⟨⟨3⟩, 5, .ret⟩]⟩, true, []⟩) := by
  have h : ∀ i ∈ [(⟨⟨1⟩, 5, .nop⟩ : Instr), ⟨⟨3⟩, 5, .ret⟩], i.id ≠ ⟨2⟩ := by decide
  exact ⟨h, (insert_absent_iff_ne_nil h .after _).mpr (List.cons_ne_nil _ _)⟩

/-- A missing anchor is not reported for every batch: an empty one reports success, and lays the
code out where that is set. -/
theorem not_forall_absent_reported :
    ¬ ∀ (w : Weaver) (side : Side) (anchor : InstrId) (batch : List Instr),
      (∀ i ∈ w.code.toList, i.id ≠ anchor) →
      (w.insert side anchor batch).1 = .error (.noAnchor anchor.val) ∧
      (w.insert side anchor batch).2.code = w.code := by
  intro h
  have hw := h ⟨⟨[⟨⟨1⟩, 5, .nop⟩]⟩, true, []⟩ .before ⟨2⟩ [] (by decide)
  exact nomatch hw.1

end Weaver

end Cil
