import Cil.Proofs.Weave.Atomicity
import Mathlib.Data.List.Nodup

/-!
# Taking a batch out again

What has been inserted can be taken out by its identities, one after another in any order, and
leaves no trace. Whatever has been taken out so far, each of the remaining identities still stands
once: this is what carries through (`Code.ShowsOnce`), and after all of them the instructions of
other identities are left (`Code.exists_removeAll`). Main statement: `Weaver.removeAll_insert`.
-/

namespace Cil

namespace Code

/-- Takes instructions out one after another, up to the first that is not there. -/
def removeAll : List InstrId → Code → Except Error (List Instr × Code)
  | [], c => .ok ([], c)
  | id :: rest, c => match c.remove id with
    | .error e => .error e
    | .ok (i, c) => (removeAll rest c).map fun (taken, c) ↦ (i :: taken, c)

/-- The identity of an instruction stands once in a sequence, and there the instruction stands, as
far as it shows. -/
def ShowsOnce (f : Instr → Instr) (l : List Instr) (i : Instr) : Prop :=
  (l.filter (·.id = i.id)).map f = [f i]

variable {f : Instr → Instr} {l before batch after : List Instr} {i j : Instr}

namespace ShowsOnce

private theorem remove (h : ShowsOnce f l i) :
    ∃ j, (mk l).remove i.id = .ok (j, ⟨l.filter (·.id ≠ i.id)⟩) ∧ f j = f i := by
  obtain ⟨j, hj, hshown⟩ := List.map_eq_singleton_iff.mp h
  obtain ⟨front, back, rfl, hfront, hid, hback⟩ := List.filter_eq_cons_iff.mp hj
  rw [decide_eq_true_iff] at hid
  have hf : ∀ x ∈ front, x.id ≠ i.id := by simpa using hfront
  have hb : ∀ x ∈ back, x.id ≠ i.id := by simpa using hback
  have hrest : (front ++ j :: back).filter (·.id ≠ i.id) = front ++ back := by
    rw [List.filter_append, List.filter_cons_of_neg (by simp [hid]),
      List.filter_eq_self.mpr (by simpa using hf), List.filter_eq_self.mpr (by simpa using hb)]
  refine ⟨j, ?_, hshown⟩
  rw [hrest]
  exact remove_eq_ok_iff.mpr ⟨front, back, rfl, hid, hf, rfl⟩

private theorem filter (h : ShowsOnce f l j) (hne : j.id ≠ i.id) :
    ShowsOnce f (l.filter (·.id ≠ i.id)) j := by
  have hsame : (l.filter (·.id ≠ i.id)).filter (·.id = j.id) = l.filter (·.id = j.id) := by
    rw [List.filter_filter]
    apply List.filter_congr
    intro x _
    by_cases hx : x.id = j.id
    · simp [hx, hne]
    · simp [hx]
  rw [ShowsOnce, hsame]
  exact h

end ShowsOnce

/-- Instructions of different identities, each of which stands once, are taken out one after
another, and those of all other identities are left in their order. -/
theorem exists_removeAll {order : List Instr} (hnodup : (order.map (·.id)).Nodup)
    (h : ∀ i ∈ order, ShowsOnce f l i) :
    ∃ taken, removeAll (order.map (·.id)) ⟨l⟩ =
        .ok (taken, ⟨l.filter (·.id ∉ order.map (·.id))⟩) ∧
      taken.map f = order.map f := by
  induction order generalizing l with
  | nil => exact ⟨[], by simp [removeAll], rfl⟩
  | cons i rest ih =>
    obtain ⟨hi, hrest⟩ := List.forall_mem_cons.mp h
    obtain ⟨hnew, hnodup⟩ := List.nodup_cons.mp hnodup
    obtain ⟨first, hremove, hfirst⟩ := hi.remove
    have hstill : ∀ j ∈ rest, ShowsOnce f (l.filter (·.id ≠ i.id)) j := by
      intro j hj
      apply (hrest j hj).filter
      intro hid
      exact hnew (List.mem_map.mpr ⟨j, hj, hid⟩)
    obtain ⟨taken, htaken, hshown⟩ := ih hnodup hstill
    refine ⟨first :: taken, ?_, ?_⟩
    · have hleft : (l.filter (·.id ≠ i.id)).filter (·.id ∉ rest.map (·.id)) =
          l.filter (·.id ∉ (i :: rest).map (·.id)) := by
        rw [List.filter_filter]
        apply List.filter_congr
        intro x _
        rw [Bool.eq_iff_iff]
        simp only [List.map_cons, List.mem_cons, Bool.and_eq_true, decide_eq_true_iff, not_or]
        exact and_comm
      rw [List.map_cons, removeAll, hremove]
      dsimp only
      rw [htaken, hleft]
      rfl
    · rw [List.map_cons, List.map_cons, hfirst, hshown]

/-! ### A block among other instructions -/

private theorem Side.exists_place_eq (side : Side) (front : List Instr) (found : Instr)
    (items back : List Instr) :
    ∃ before after, front ++ found :: back = before ++ after ∧
      side.place front found items back = before ++ items ++ after := by
  cases side with
  | before => exact ⟨front, found :: back, rfl, by simp [place]⟩
  | after => exact ⟨front ++ [found], back, by simp, by simp [place]⟩

private theorem filter_id_eq_singleton (hnodup : (batch.map (·.id)).Nodup)
    (hnew : ∀ i ∈ batch, ∀ j ∈ before ++ after, j.id ≠ i.id) (hi : i ∈ batch) :
    (before ++ batch ++ after).filter (·.id = i.id) = [i] := by
  obtain ⟨front, back, rfl⟩ := List.append_of_mem hi
  rw [List.map_append, List.map_cons, List.nodup_middle, ← List.map_append,
    List.nodup_cons] at hnodup
  have hbatch : ∀ j ∈ front ++ back, j.id ≠ i.id := by
    intro j hj hid
    exact hnodup.1 (hid ▸ List.mem_map_of_mem hj)
  have hothers : ∀ j ∈ before ++ after, j.id ≠ i.id := hnew i hi
  rw [List.forall_mem_append] at hbatch hothers
  have hnone {part : List Instr} (h : ∀ j ∈ part, j.id ≠ i.id) :
      part.filter (·.id = i.id) = [] := by
    simpa using h
  simp only [List.filter_append, List.filter_cons, hnone hbatch.1, hnone hbatch.2,
    hnone hothers.1, hnone hothers.2, decide_true, if_true, List.nil_append, List.append_nil]

private theorem filter_id_notMem_eq (hnew : ∀ i ∈ batch, ∀ j ∈ before ++ after, j.id ≠ i.id) :
    (before ++ batch ++ after).filter (·.id ∉ batch.map (·.id)) = before ++ after := by
  have hnone : batch.filter (·.id ∉ batch.map (·.id)) = [] := by
    rw [List.filter_eq_nil_iff]
    intro i hi
    simpa using ⟨i, hi, rfl⟩
  have hall : (before ++ after).filter (·.id ∉ batch.map (·.id)) = before ++ after := by
    rw [List.filter_eq_self]
    intro j hj
    simpa using fun i hi hid ↦ hnew i hi j hj hid.symm
  rw [List.filter_append, List.filter_append, hnone, List.append_nil, ← List.filter_append, hall]

private theorem map_filter_id_congr {l' : List Instr} (hf : ∀ i, (f i).id = i.id)
    (p : InstrId → Bool) (h : l.map f = l'.map f) :
    (l.filter fun i ↦ p i.id).map f = (l'.filter fun i ↦ p i.id).map f := by
  have hmap (l : List Instr) :
      (l.filter fun i ↦ p i.id).map f = (l.map f).filter fun i ↦ p i.id := by
    rw [List.filter_map]
    congr 1
    apply List.filter_congr
    intro i _
    rw [Function.comp_apply, hf]
  rw [hmap, h, ← hmap]

/-- A block of new and different identities is taken out of code in any order, as far as the code
shows it, and what shows around it is left. -/
theorem exists_removeAll_block {c : Code} {order : List Instr} (hf : ∀ i, (f i).id = i.id)
    (hc : c.toList.map f = (before ++ batch ++ after).map f)
    (hnodup : (batch.map (·.id)).Nodup)
    (hnew : ∀ i ∈ batch, ∀ j ∈ before ++ after, j.id ≠ i.id) (horder : order.Perm batch) :
    ∃ taken rest, removeAll (order.map (·.id)) c = .ok (taken, rest) ∧
      taken.map f = order.map f ∧ rest.toList.map f = (before ++ after).map f := by
  have honce : ∀ i ∈ order, ShowsOnce f c.toList i := by
    intro i hi
    have hi' : i ∈ batch := horder.mem_iff.mp hi
    rw [ShowsOnce, map_filter_id_congr hf (· = i.id) hc, filter_id_eq_singleton hnodup hnew hi']
    rfl
  have hdistinct : (order.map (·.id)).Nodup := (horder.map _).nodup_iff.mpr hnodup
  obtain ⟨taken, hremove, htaken⟩ := exists_removeAll hdistinct honce
  refine ⟨taken, _, hremove, htaken, ?_⟩
  have hids (id : InstrId) : id ∉ order.map (·.id) ↔ id ∉ batch.map (·.id) :=
    not_congr (horder.map _).mem_iff
  rw [map_filter_id_congr hf (· ∉ order.map (·.id)) hc]
  simp only [hids]
  rw [filter_id_notMem_eq hnew]

end Code

namespace Weaver

open Code (Side removeAll)

private theorem map_lasting_settle (w : Weaver) (c : Code) :
    (w.settle c).toList.map w.lasting = c.toList.map w.lasting := by
  rw [← settle_eq_iff]
  unfold settle
  split
  · exact c.relayout_relayout
  · rfl

/-- A batch of new and different identities goes in, and can be taken out again one by one in any
order. Every item is handed out as it was, and the code is then what it was before; where the code
was laid out with the batch, this is so but for offsets, and laying out what is left gives what
laying out the code as it was gives. -/
theorem removeAll_insert {w : Weaver} {anchor : InstrId} {batch order : List Instr} (side : Side)
    (hanchor : ∃ i ∈ w.code.toList, i.id = anchor) (hnodup : (batch.map (·.id)).Nodup)
    (hnew : ∀ i ∈ batch, ∀ j ∈ w.code.toList, j.id ≠ i.id) (horder : order.Perm batch) :
    (w.insert side anchor batch).1 = .ok () ∧
    ∃ taken rest, removeAll (order.map (·.id)) (w.insert side anchor batch).2.code =
        .ok (taken, rest) ∧
      (w.relayout = false → taken = order ∧ rest = w.code) ∧
      (w.relayout = true → taken.map Instr.unplaced = order.map Instr.unplaced ∧
        rest.toList.map Instr.unplaced = w.code.toList.map Instr.unplaced ∧
        rest.relayout = w.code.relayout) := by
  obtain ⟨front, found, back, h⟩ := Code.exists_firstAt hanchor
  have hfound : found ∈ w.code.toList := by
    rw [h.eq_append]
    exact List.mem_append_right front List.mem_cons_self
  have hown : ∀ i ∈ batch.dropLast, i.id ≠ anchor := by
    intro i hi hid
    exact hnew i ((List.dropLast_sublist batch).subset hi) found hfound (h.id_eq.trans hid.symm)
  rw [insert_of_firstAt h, side.arrange_eq_self hown]
  obtain ⟨before, after, hsplit, hplace⟩ := side.exists_place_eq front found batch back
  have hcode : w.code.toList = before ++ after := h.eq_append.trans hsplit
  rw [hcode] at hnew
  rw [hplace]
  refine ⟨rfl, ?_⟩
  -- Laid out or not, the code shows the batch among what was there.
  obtain ⟨taken, rest, hremove, htaken, hrest⟩ := Code.exists_removeAll_block w.id_lasting
    (w.map_lasting_settle ⟨before ++ batch ++ after⟩) hnodup hnew horder
  rw [← hcode] at hrest
  refine ⟨taken, rest, hremove, ?_⟩
  constructor
  · intro hr
    rw [lasting_of_not_relayout hr, List.map_id, List.map_id] at htaken hrest
    exact ⟨htaken, congrArg Code.mk hrest⟩
  · intro hr
    rw [lasting_of_relayout hr] at htaken hrest
    exact ⟨htaken, hrest, Code.relayout_eq_iff.mpr hrest⟩

/-- The identity of the anchor stands twice in the code, and the items are taken out in another
order than they went in. -/
theorem removeAll_insert_shuffled :
    let code : Code := ⟨[⟨⟨1⟩, 5, .nop⟩, ⟨⟨2⟩, 5, .ret⟩, ⟨⟨1⟩, 9, .pop⟩]⟩
    let batch : List Instr := [⟨⟨3⟩, 0, .dup⟩, ⟨⟨4⟩, 7, .ldcI4 500⟩, ⟨⟨5⟩, 0, .pop⟩]
    let order : List Instr := [⟨⟨4⟩, 7, .ldcI4 500⟩, ⟨⟨5⟩, 0, .pop⟩, ⟨⟨3⟩, 0, .dup⟩]
    (∃ i ∈ code.toList, i.id = ⟨1⟩) ∧ (batch.map (·.id)).Nodup ∧
    (∀ i ∈ batch, ∀ j ∈ code.toList, j.id ≠ i.id) ∧ order.Perm batch ∧
    removeAll [⟨4⟩, ⟨5⟩, ⟨3⟩] (insert .before ⟨1⟩ batch ⟨code, false, []⟩).2.code =
      .ok (order, code) ∧
    ∃ taken rest,
      removeAll [⟨4⟩, ⟨5⟩, ⟨3⟩] (insert .after ⟨1⟩ batch ⟨code, true, []⟩).2.code =
        .ok (taken, rest) ∧
      rest.relayout = ⟨[⟨⟨1⟩, 0, .nop⟩, ⟨⟨2⟩, 1, .ret⟩, ⟨⟨1⟩, 2, .pop⟩]⟩ := by
  intro code batch order
  have hanchor : ∃ i ∈ code.toList, i.id = ⟨1⟩ := by decide
  have hnodup : (batch.map (·.id)).Nodup := by decide
  have hnew : ∀ i ∈ batch, ∀ j ∈ code.toList, j.id ≠ i.id := by decide
  have horder : order.Perm batch := by decide
  refine ⟨hanchor, hnodup, hnew, horder, ?_, ?_⟩
  · obtain ⟨-, taken, rest, hremove, hleft, -⟩ :=
      removeAll_insert (w := ⟨code, false, []⟩) .before hanchor hnodup hnew horder
    obtain ⟨rfl, rfl⟩ := hleft rfl
    exact hremove
  · obtain ⟨-, taken, rest, hremove, -, hleft⟩ :=
      removeAll_insert (w := ⟨code, true, []⟩) .after hanchor hnodup hnew horder
    exact ⟨taken, rest, hremove, (hleft rfl).2.2.trans rfl⟩

end Weaver

end Cil
