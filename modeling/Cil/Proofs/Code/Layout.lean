import Cil.Code.Weave

/-!
# What a layout depends on

Laying out gives every instruction a new offset, computed from the sizes before it. So it forgets
the old offsets and nothing else: `Code.layOut_eq_iff`. Whether a pass does so after a batch is
its setting: `Weaver.settle_eq_iff`.
-/

namespace Cil

namespace Instr

/-- The instruction apart from where it stands. -/
def unplaced (i : Instr) : Instr := { i with offset := 0 }

/-- The size belongs to the opcode. -/
@[simp] theorem size_unplaced (i : Instr) : i.unplaced.size = i.size := rfl

end Instr

namespace Code

/-- Laying out changes nothing but places. -/
theorem map_unplaced_layOut (offset : Int32) (l : List Instr) :
    (layOut offset l).map Instr.unplaced = l.map Instr.unplaced := by
  induction l generalizing offset with
  | nil => rfl
  | cons i rest ih =>
    rw [layOut, List.map_cons, List.map_cons, ih]
    rfl

private theorem layOut_map_unplaced (offset : Int32) (l : List Instr) :
    layOut offset (l.map Instr.unplaced) = layOut offset l := by
  induction l generalizing offset with
  | nil => rfl
  | cons i rest ih =>
    rw [List.map_cons, layOut, layOut, Instr.size_unplaced, ih]
    rfl

/-- Two layouts from the same offset are equal exactly when the instructions agree apart from the
places they had. -/
theorem layOut_eq_iff {offset : Int32} {l l' : List Instr} :
    layOut offset l = layOut offset l' ↔ l.map Instr.unplaced = l'.map Instr.unplaced := by
  constructor
  · intro h
    rw [← map_unplaced_layOut offset l, h, map_unplaced_layOut]
  · intro h
    rw [← layOut_map_unplaced offset l, h, layOut_map_unplaced]

/-- Code laid out anew shows all of its instructions but the places they had. -/
theorem relayout_eq_iff {c c' : Code} :
    c.relayout = c'.relayout ↔ c.toList.map Instr.unplaced = c'.toList.map Instr.unplaced := by
  rw [relayout, relayout, mk.injEq, layOut_eq_iff]

/-- Laying out a second time changes nothing. -/
theorem relayout_relayout (c : Code) : c.relayout.relayout = c.relayout :=
  relayout_eq_iff.mpr (map_unplaced_layOut 0 c.toList)

end Code

namespace Weaver

/-- What a pass leaves of an instruction: all of it, or all but its place. -/
def lasting (w : Weaver) (i : Instr) : Instr := if w.relayout then i.unplaced else i

/-- The identity lasts. -/
@[simp] theorem id_lasting (w : Weaver) (i : Instr) : (w.lasting i).id = i.id := by
  unfold lasting
  split <;> rfl

/-- Where a pass lays out, all but the place lasts. -/
theorem lasting_of_relayout {w : Weaver} (hr : w.relayout = true) : w.lasting = Instr.unplaced := by
  funext i
  rw [lasting, hr, if_pos rfl]

/-- Where a pass does not lay out, all of an instruction lasts. -/
theorem lasting_of_not_relayout {w : Weaver} (hr : w.relayout = false) : w.lasting = id := by
  funext i
  rw [lasting, hr, if_neg Bool.false_ne_true, id_eq]

/-- After a batch all is as it was but the places. -/
theorem map_unplaced_settle (w : Weaver) (c : Code) :
    (w.settle c).toList.map Instr.unplaced = c.toList.map Instr.unplaced := by
  rw [settle]
  split
  · exact Code.map_unplaced_layOut 0 c.toList
  · rfl

/-- A pass leaves the same code of two exactly when they agree in what it leaves of the
instructions. -/
theorem settle_eq_iff {w : Weaver} {c c' : Code} :
    w.settle c = w.settle c' ↔ c.toList.map w.lasting = c'.toList.map w.lasting := by
  cases hr : w.relayout with
  | true =>
    simp only [settle, hr, lasting_of_relayout hr, if_true, Code.relayout_eq_iff]
  | false =>
    obtain ⟨l⟩ := c
    obtain ⟨l'⟩ := c'
    simp [settle, hr, lasting_of_not_relayout hr]

end Weaver

end Cil
