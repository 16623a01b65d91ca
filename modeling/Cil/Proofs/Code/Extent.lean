import Cil.Proofs.Code.Layout
import Cil.Proofs.Code.Ordered

/-!
# Where a layout puts instructions

A layout adds up sizes one after the other and stands still at the greatest offset. What it comes
to is the plain sum of the sizes, cut off once: `Code.toInt_endOffset`. Emitting goes by the last
instruction alone, and still puts every instruction where a layout of all of them does. Main
statement: `Code.layouts_agree`.
-/

namespace Cil.Code

/-- The total size of instructions, which no offset limits. -/
def extent : List Instr → Int
  | [] => 0
  | i :: rest => i.size.toInt + extent rest

private theorem extent_nonneg (l : List Instr) : 0 ≤ extent l := by
  induction l with
  | nil => exact Int.le_refl 0
  | cons i rest ih =>
    have hsize : 1 ≤ i.size.toInt := i.opcode.one_le_size
    rw [extent]
    omega

/-- The offset behind instructions that are laid out from an offset on. -/
def endOffset (offset : Int32) : List Instr → Int32
  | [] => offset
  | i :: rest => endOffset (Instr.advance offset i.size) rest

private theorem endOffset_append (offset : Int32) (l l' : List Instr) :
    endOffset offset (l ++ l') = endOffset (endOffset offset l) l' := by
  induction l generalizing offset with
  | nil => rfl
  | cons i rest ih => exact ih _

private theorem toInt_endOffset (offset : Int32) (l : List Instr) :
    (endOffset offset l).toInt = min Int32.maxValue.toInt (offset.toInt + extent l) := by
  induction l generalizing offset with
  | nil =>
    have hmax : offset.toInt ≤ Int32.maxValue.toInt := offset.toInt_le
    rw [endOffset, extent]
    omega
  | cons i rest ih =>
    have hsize : 1 ≤ i.size.toInt := i.opcode.one_le_size
    have hrest : 0 ≤ extent rest := extent_nonneg rest
    rw [endOffset, ih, Instr.toInt_advance (by omega), extent]
    omega

/-! ### Layouts -/

/-- What follows is laid out from the end of what comes before. -/
theorem layOut_append (offset : Int32) (l l' : List Instr) :
    layOut offset (l ++ l') = layOut offset l ++ layOut (endOffset offset l) l' := by
  induction l generalizing offset with
  | nil => rfl
  | cons i rest ih =>
    rw [List.cons_append, layOut, ih, layOut, List.cons_append]
    rfl

/-- A layout puts each instruction at the end of those before it. -/
theorem getElem?_layOut (offset : Int32) (l : List Instr) (k : Nat) :
    (layOut offset l)[k]? =
      l[k]?.map fun i ↦ { i with offset := endOffset offset (l.take k) } := by
  induction l generalizing offset k with
  | nil => rfl
  | cons i rest ih =>
    cases k with
    | zero => rfl
    | succ k =>
      rw [layOut, List.getElem?_cons_succ, ih]
      rfl

/-- Behind a layout the next offset is where it ends. -/
theorem nextOffset_relayout (c : Code) : c.relayout.nextOffset = endOffset 0 c.toList := by
  rcases List.eq_nil_or_concat c.toList with hc | ⟨init, last, hc⟩
  · rw [relayout, hc]
    rfl
  · rw [relayout, hc, List.concat_eq_append, layOut_append, endOffset_append, nextOffset, layOut,
      layOut, List.getLast?_concat]
    rfl

private theorem map_placed_layOut_congr {l l' : List Instr}
    (h : l.map (·.opcode) = l'.map (·.opcode)) (offset : Int32) :
    (layOut offset l).map (fun i ↦ (i.offset, i.opcode)) =
      (layOut offset l').map fun i ↦ (i.offset, i.opcode) := by
  induction l generalizing l' offset with
  | nil => rw [List.map_eq_nil_iff.mp h.symm]
  | cons i rest ih =>
    obtain ⟨j, rest', rfl, hj, hrest⟩ := List.map_eq_cons_iff.mp h.symm
    have hsize : j.size = i.size := by rw [Instr.size, hj, Instr.size]
    rw [layOut, layOut, List.map_cons, List.map_cons, hsize, ih hrest.symm, hj]

/-! ### Emitting -/

/-- Emits opcodes one after the other. -/
def emitAll : List Opcode → Code → Supply → Code × Supply
  | [], c, s => (c, s)
  | opcode :: rest, c, s =>
    let ((_, c), s) := c.emit opcode s
    emitAll rest c s

private theorem map_opcode_emitAll (opcodes : List Opcode) (c : Code) (s : Supply) :
    (emitAll opcodes c s).1.toList.map (·.opcode) = c.toList.map (·.opcode) ++ opcodes := by
  induction opcodes generalizing c s with
  | nil => exact (List.append_nil _).symm
  | cons opcode rest ih =>
    rw [emitAll, ih, toList_emit, List.map_append, List.append_assoc]
    rfl

/-- Laying out pushes an instruction to the next offset. -/
theorem relayout_push (i : Instr) (c : Code) :
    (c.push i).relayout = c.relayout.push { i with offset := c.relayout.nextOffset } := by
  rw [nextOffset_relayout, relayout, toList_push, layOut_append]
  rfl

/-- What is laid out stays so when an opcode is emitted. -/
theorem relayout_emit {c : Code} (h : c.relayout = c) (opcode : Opcode) (s : Supply) :
    (c.emit opcode s).1.2.relayout = (c.emit opcode s).1.2 := by
  calc (c.emit opcode s).1.2.relayout
    _ = c.relayout.push ⟨s.take.1, c.relayout.nextOffset, opcode⟩ := relayout_push _ c
    _ = (c.emit opcode s).1.2 := by rw [h]; rfl

private theorem relayout_emitAll {c : Code} (h : c.relayout = c) (opcodes : List Opcode)
    (s : Supply) :
    (emitAll opcodes c s).1.relayout = (emitAll opcodes c s).1 := by
  induction opcodes generalizing c s with
  | nil => exact h
  | cons opcode rest ih => exact ih (relayout_emit h opcode s) _

private theorem map_placed_emitAll (c : Code) (s : Supply) :
    (emitAll (c.toList.map (·.opcode)) .empty s).1.toList.map (fun i ↦ (i.offset, i.opcode)) =
      c.relayout.toList.map fun i ↦ (i.offset, i.opcode) := by
  have hlaid := relayout_emitAll (c := .empty) rfl (c.toList.map (·.opcode)) s
  rw [← hlaid]
  exact map_placed_layOut_congr (map_opcode_emitAll _ _ s) 0

/-- Laying code out puts the instruction at each index to the total size of those before it, or to
the greatest offset where that is less; it changes nothing else, goes by nothing but what it leaves
as it is, and changes nothing when it is done again. The next offset is then the total size of all,
cut off likewise. Emitting the same opcodes from the start puts them to the same offsets, and what
is laid out stays so whatever is emitted. The offsets ascend strictly exactly where all
instructions but the last stand below the greatest offset. -/
theorem layouts_agree (c : Code) :
    (∀ k, c.relayout.toList[k]?.map (·.offset.toInt) =
      c.toList[k]?.map fun _ ↦ min Int32.maxValue.toInt (extent (c.toList.take k))) ∧
    c.relayout.toList.map Instr.unplaced = c.toList.map Instr.unplaced ∧
    (∀ c' : Code, c'.toList.map Instr.unplaced = c.toList.map Instr.unplaced →
      c'.relayout = c.relayout) ∧
    c.relayout.relayout = c.relayout ∧
    c.relayout.nextOffset.toInt = min Int32.maxValue.toInt (extent c.toList) ∧
    (∀ s, (emitAll (c.toList.map (·.opcode)) .empty s).1.toList.map
        (fun i ↦ (i.offset, i.opcode)) =
      c.relayout.toList.map fun i ↦ (i.offset, i.opcode)) ∧
    (c.relayout = c → ∀ opcodes s,
      (emitAll opcodes c s).1.relayout = (emitAll opcodes c s).1) ∧
    (c.relayout.toList.Pairwise (fun i j ↦ i.offset < j.offset) ↔
      ∀ i ∈ c.relayout.toList.dropLast, i.offset < Int32.maxValue) := by
  have hend (l : List Instr) :
      (endOffset 0 l).toInt = min Int32.maxValue.toInt (extent l) := by
    rw [toInt_endOffset, Int32.toInt_zero, Int.zero_add]
  refine ⟨fun k ↦ ?_, map_unplaced_layOut 0 c.toList, fun _ ↦ relayout_eq_iff.mpr,
    c.relayout_relayout, ?_, c.map_placed_emitAll, relayout_emitAll,
    (ordered_relayout c).pairwise_lt_iff⟩
  · rw [relayout, getElem?_layOut, Option.map_map]
    exact congrArg (c.toList[k]?.map ·) (funext fun _ ↦ hend _)
  · rw [nextOffset_relayout, hend]

/-- Two instructions stand at the greatest offset, the first one of them where it belongs. -/
theorem layouts_agree_outgrown :
    let c : Code := ⟨[⟨⟨7⟩, 0, .other "blob" 2147483647⟩, ⟨⟨2⟩, 2147483647, .nop⟩,
      ⟨⟨4⟩, 2147483647, .ret⟩]⟩
    let moved : Code := ⟨[⟨⟨7⟩, -3, .other "blob" 2147483647⟩, ⟨⟨2⟩, 5, .nop⟩, ⟨⟨4⟩, 5, .ret⟩]⟩
    moved.toList.map Instr.unplaced = c.toList.map Instr.unplaced ∧ moved.relayout = c ∧
    extent c.toList = 2147483649 ∧ c.nextOffset.toInt = 2147483647 ∧
    (emitAll [.pop, .dup] c .full).1.relayout = (emitAll [.pop, .dup] c .full).1 ∧
    ¬ c.toList.Pairwise fun i j ↦ i.offset < j.offset := by
  intro c moved
  have hc : c.relayout = c := by decide
  have hmoved : moved.toList.map Instr.unplaced = c.toList.map Instr.unplaced := by decide
  obtain ⟨-, -, hindep, -, hnext, -, hemit, hstrict⟩ := layouts_agree c
  rw [hc] at hnext hstrict hindep
  refine ⟨hmoved, hindep moved hmoved, by decide, hnext.trans (by decide), hemit hc _ _, ?_⟩
  rw [hstrict]
  decide

end Cil.Code
