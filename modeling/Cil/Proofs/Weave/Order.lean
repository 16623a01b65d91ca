import Cil.Proofs.Code.Layout
import Cil.Proofs.Session.Run
import Cil.Proofs.Weave.Placement
import Mathlib.Data.List.Palindrome
import Mathlib.Data.List.Perm.Subperm

/-!
# When a batch before an anchor keeps its order

An item that has the anchor's own identity is the anchor of the items after it. Main statements:
`Weaver.insert_before_in_order_iff` says for which batches the order is kept all the same, and
`Session.not_forall_held_in_order` that a caller can hold a batch of the other kind.
-/

namespace Cil

namespace Code.Side

variable {anchor : InstrId} {others same batch : List Instr}

private theorem arrange_before_append (ho : ∀ i ∈ others, i.id ≠ anchor)
    (hs : ∀ i ∈ same, i.id = anchor) :
    Side.before.arrange anchor (others ++ same) = others ++ same.reverse := by
  have hoo : others.filter (·.id ≠ anchor) = others := by simpa using ho
  have hos : others.filter (·.id = anchor) = [] := by simpa using ho
  have hso : same.filter (·.id ≠ anchor) = [] := by simpa using hs
  have hss : same.filter (·.id = anchor) = same := by simpa using hs
  rw [arrange, List.filter_append, List.filter_append, hoo, hos, hso, hss, List.append_nil,
    List.nil_append]

private theorem forall_id_of_map_id {p : InstrId → Prop} {l l' : List Instr}
    (h : l.map (·.id) = l'.map (·.id)) (hl : ∀ i ∈ l, p i.id) : ∀ i ∈ l', p i.id := by
  intro i hi
  have hm : i.id ∈ l.map (·.id) := h ▸ List.mem_map_of_mem hi
  obtain ⟨j, hj, hji⟩ := List.mem_map.mp hm
  exact hji ▸ hl j hj

private theorem exists_append_of_map_id
    (h : (Side.before.arrange anchor batch).map (·.id) = batch.map (·.id)) :
    ∃ others same, batch = others ++ same ∧ (∀ i ∈ others, i.id ≠ anchor) ∧
      ∀ i ∈ same, i.id = anchor := by
  -- The items that come first in the end are as many as there are of other identities.
  let n := (batch.filter (·.id ≠ anchor)).length
  have hn : (batch.take n).length = n := by
    rw [List.length_take, Nat.min_eq_left (List.length_filter_le _ _)]
  have hsplit : (batch.filter (·.id ≠ anchor)).map (·.id) = (batch.take n).map (·.id) ∧
      (batch.filter (·.id = anchor)).reverse.map (·.id) = (batch.drop n).map (·.id) := by
    apply List.append_inj
    · rw [← List.map_append, ← List.map_append, List.take_append_drop]
      exact h
    · rw [List.length_map, List.length_map, hn]
  have ho : ∀ i ∈ batch.filter (·.id ≠ anchor), i.id ≠ anchor := by simp
  have hs : ∀ i ∈ (batch.filter (·.id = anchor)).reverse, i.id = anchor := by simp
  exact ⟨batch.take n, batch.drop n, (List.take_append_drop n batch).symm,
    forall_id_of_map_id (p := (· ≠ anchor)) hsplit.1 ho,
    forall_id_of_map_id (p := (· = anchor)) hsplit.2 hs⟩

/-- Seen through anything that shows identities, a batch keeps its order exactly when its items of
the anchor's identity end it and read the same from either end. -/
theorem map_arrange_before_eq_iff {f : Instr → Instr} (hf : ∀ i, (f i).id = i.id) :
    (Side.before.arrange anchor batch).map f = batch.map f ↔
      ∃ others same, batch = others ++ same ∧ (∀ i ∈ others, i.id ≠ anchor) ∧
        (∀ i ∈ same, i.id = anchor) ∧ (same.map f).Palindrome := by
  constructor
  · intro h
    have hid : (Side.before.arrange anchor batch).map (·.id) = batch.map (·.id) := by
      simpa [Function.comp_def, hf] using congrArg (List.map (·.id)) h
    obtain ⟨others, same, rfl, ho, hs⟩ := exists_append_of_map_id hid
    refine ⟨others, same, rfl, ho, hs, List.Palindrome.of_reverse_eq ?_⟩
    rw [arrange_before_append ho hs, List.map_append, List.map_append] at h
    rw [← List.map_reverse]
    exact List.append_cancel_left h
  · rintro ⟨others, same, rfl, ho, hs, hp⟩
    rw [arrange_before_append ho hs, List.map_append, List.map_append, List.map_reverse,
      hp.reverse_eq]

end Code.Side

namespace Weaver

open Code (FirstAt Side)

variable {anchor : InstrId} {front back : List Instr} {found : Instr}

/-- A batch stands in its own order directly in front of its anchor exactly when its items of the
anchor's identity come last and, as far as the pass leaves them, read the same from either end. -/
theorem insert_before_in_order_iff {w : Weaver}
    (h : FirstAt anchor w.code.toList front found back) (batch : List Instr) :
    w.insert .before anchor batch = (.ok (), { w with
        code := w.settle ⟨front ++ batch ++ [found] ++ back⟩
        log := w.log ++ [.inserted batch.length .before anchor] }) ↔
      ∃ others same, batch = others ++ same ∧ (∀ i ∈ others, i.id ≠ anchor) ∧
        (∀ i ∈ same, i.id = anchor) ∧ (same.map w.lasting).Palindrome := by
  rw [← Side.map_arrange_before_eq_iff w.id_lasting, insert_of_firstAt h]
  have hl : Side.before.place front found (Side.before.arrange anchor batch) back =
      front ++ Side.before.arrange anchor batch ++ [found] ++ back := by simp [Side.place]
  rw [hl]
  simp only [Prod.mk.injEq, mk.injEq, and_true, true_and, settle_eq_iff, List.map_append,
    List.append_cancel_left_eq, List.append_cancel_right_eq]

/-- Two items of the anchor's identity trade places, which does not show once all are laid out. -/
theorem insert_before_in_order_twins :
    FirstAt ⟨2⟩ [⟨⟨1⟩, 0, .nop⟩, ⟨⟨2⟩, 1, .ret⟩] [⟨⟨1⟩, 0, .nop⟩] ⟨⟨2⟩, 1, .ret⟩ [] ∧
    insert .before ⟨2⟩ [⟨⟨3⟩, 0, .dup⟩, ⟨⟨2⟩, 1, .pop⟩, ⟨⟨2⟩, 9, .pop⟩]
        ⟨⟨[⟨⟨1⟩, 0, .nop⟩, ⟨⟨2⟩, 1, .ret⟩]⟩, true, []⟩ =
      (.ok (), ⟨⟨[⟨⟨1⟩, 0, .nop⟩, ⟨⟨3⟩, 1, .dup⟩, ⟨⟨2⟩, 2, .pop⟩, ⟨⟨2⟩, 3, .pop⟩,
        ⟨⟨2⟩, 4, .ret⟩]⟩, true, [.inserted 3 .before ⟨2⟩]⟩) := by
  have h : FirstAt ⟨2⟩ [⟨⟨1⟩, 0, .nop⟩, ⟨⟨2⟩, 1, .ret⟩] [⟨⟨1⟩, 0, .nop⟩] ⟨⟨2⟩, 1, .ret⟩ [] :=
    ⟨rfl, rfl, by decide⟩
  refine ⟨h, ?_⟩
  rw [(insert_before_in_order_iff h [⟨⟨3⟩, 0, .dup⟩, ⟨⟨2⟩, 1, .pop⟩, ⟨⟨2⟩, 9, .pop⟩]).mpr
    ⟨[⟨⟨3⟩, 0, .dup⟩], [⟨⟨2⟩, 1, .pop⟩, ⟨⟨2⟩, 9, .pop⟩], rfl, by decide, by decide, by decide⟩]
  rfl

end Weaver

namespace Session

open Code (FirstAt)

/-- A body is copied, the last instruction of the copy is taken out of it, and a new one is made. -/
def copiedAnchor : List Op := [
  .emit "body" .nop,
  .emit "body" .ret,
  .copy "body" "copy",
  .remove "copy" ⟨2⟩ "anchor",
  .hold "body" (.made 0 .pop) "other"]

/-- Not every batch in hand keeps its order before an anchor: a copy of a body shares identities
with it, so that an instruction taken out of the copy can be its own anchor. -/
theorem not_forall_held_in_order :
    ¬ ∀ (ops : List Op) (name : String) (front back batch : List Instr) (found : Instr),
      FirstAt found.id ((run ops start).body name).toList front found back →
      batch.Subperm (run ops start).loose.values →
      ((weave name .before found.id batch none).run (run ops start)).2.body name =
        ⟨front ++ batch ++ [found] ++ back⟩ := by
  intro h
  have hb := h copiedAnchor "body" [⟨⟨1⟩, 0, .nop⟩] [] [⟨⟨2⟩, 1, .ret⟩, ⟨⟨3⟩, 0, .pop⟩]
    ⟨⟨2⟩, 1, .ret⟩ ⟨by decide, rfl, by decide⟩ (List.Subperm.refl _)
  revert hb
  decide

end Session

end Cil
