import Cil.Error
import Cil.Instr.Basic

/-!
# Code

The instructions of one method body in order. Offsets are data: they follow from the sizes only
when the code is laid out. Instructions are found by identity, and the first one counts where an
identity is repeated.
-/

namespace Cil

/-- The instructions of a method body; `InstructionStream`. -/
structure Code where
  toList : List Instr
  deriving DecidableEq, Repr

/-- The offset behind an instruction of a size; the greatest offset takes the place of all that
lie beyond it. -/
def Instr.advance (offset size : Int32) : Int32 := Int32.ofIntClamp (offset.toInt + size.toInt)

namespace Code

/-- Code without instructions; `InstructionStream.new`. -/
def empty : Code := ⟨[]⟩

instance : Inhabited Code := ⟨empty⟩

/-- The number of instructions. -/
def length (c : Code) : Nat := c.toList.length

/-- The code has no instruction. -/
def isEmpty (c : Code) : Bool := c.toList.isEmpty

/-- The offset behind the last instruction; `InstructionStream.next_offset`. -/
def nextOffset (c : Code) : Int32 :=
  match c.toList.getLast? with
  | none => 0
  | some last => Instr.advance last.offset last.size

/-- Appends an instruction as it is; `InstructionStream.push`. -/
def push (i : Instr) (c : Code) : Code := ⟨c.toList ++ [i]⟩

/-- Appends a new instruction behind the last one; `InstructionStream.emit`. -/
def emit (opcode : Opcode) (c : Code) (s : Supply) : (Instr × Code) × Supply :=
  let (i, s) := Instr.create c.nextOffset opcode s
  ((i, c.push i), s)

/-- Pushing appends. -/
@[simp] theorem toList_push (i : Instr) (c : Code) : (c.push i).toList = c.toList ++ [i] := rfl

/-- Emitting appends an instruction of a new identity at the next offset. -/
@[simp] theorem toList_emit (opcode : Opcode) (c : Code) (s : Supply) :
    (c.emit opcode s).1.2.toList = c.toList ++ [⟨s.take.1, c.nextOffset, opcode⟩] := rfl

/-- The index of the first instruction of this identity; `InstructionStream.position`. -/
def position? (id : InstrId) (c : Code) : Option Nat := c.toList.findIdx? (·.id == id)

/-- Splits instructions at the first one of this identity; the search of
`InstructionStream.anchor_index`. -/
def splitAt? (id : InstrId) : List Instr → Option (List Instr × Instr × List Instr)
  | [] => none
  | i :: rest =>
    if i.id = id then some ([], i, rest)
    else match splitAt? id rest with
      | none => none
      | some (front, found, back) => some (i :: front, found, back)

private theorem eq_of_splitAt? {id : InstrId} {l front back : List Instr} {found : Instr}
    (h : splitAt? id l = some (front, found, back)) :
    l = front ++ found :: back ∧ found.id = id ∧ ∀ i ∈ front, i.id ≠ id := by
  induction l generalizing front with
  | nil => simp [splitAt?] at h
  | cons i rest ih =>
    rw [splitAt?] at h
    split at h
    next hi => grind
    next hi =>
      split at h
      next => simp at h
      next f x b hs =>
        obtain ⟨rfl, rfl, rfl⟩ : i :: f = front ∧ x = found ∧ b = back := by simpa using h
        grind

private theorem splitAt?_append {id : InstrId} {front back : List Instr} {found : Instr}
    (hid : found.id = id) (hf : ∀ i ∈ front, i.id ≠ id) :
    splitAt? id (front ++ found :: back) = some (front, found, back) := by
  induction front with
  | nil => simp [splitAt?, hid]
  | cons x front ih =>
    have hx : x.id ≠ id := hf x (by simp)
    simp [splitAt?, hx, ih fun i hi ↦ hf i (by simp [hi])]

/-- A split is at the first place where the identity stands. -/
theorem splitAt?_eq_some_iff {id : InstrId} {l front back : List Instr} {found : Instr} :
    splitAt? id l = some (front, found, back) ↔
      l = front ++ found :: back ∧ found.id = id ∧ ∀ i ∈ front, i.id ≠ id :=
  ⟨eq_of_splitAt?, fun ⟨hl, hid, hf⟩ ↦ hl ▸ splitAt?_append hid hf⟩

/-- There is no split exactly when the identity stands nowhere. -/
theorem splitAt?_eq_none_iff {id : InstrId} {l : List Instr} :
    splitAt? id l = none ↔ ∀ i ∈ l, i.id ≠ id := by
  induction l with
  | nil => simp [splitAt?]
  | cons i rest ih =>
    rw [splitAt?]
    split <;> grind

/-- A side of an anchor. -/
inductive Side
  | before
  | after
  deriving DecidableEq, Repr

namespace Side

/-- The wording of the side. -/
def text : Side → String
  | .before => "before"
  | .after => "after"

/-- Puts items directly next to an anchor, on this side. -/
def place (side : Side) (front : List Instr) (anchor : Instr) (items back : List Instr) :
    List Instr :=
  match side with
  | .before => front ++ (items ++ anchor :: back)
  | .after => front ++ anchor :: (items ++ back)

end Side

/-- Inserts one instruction directly next to the anchor; `InstructionStream.insert_before` and
`InstructionStream.insert_after`. -/
def insert (side : Side) (anchor : InstrId) (i : Instr) (c : Code) : Except Error Code :=
  match splitAt? anchor c.toList with
  | none => .error (.noAnchor anchor.val)
  | some (front, found, back) => .ok ⟨side.place front found [i] back⟩

/-- An insertion takes place at the first instruction of the identity. -/
theorem insert_eq_ok {side : Side} {i found : Instr} {front back : List Instr}
    (h : ∀ x ∈ front, x.id ≠ found.id) :
    insert side found.id i ⟨front ++ found :: back⟩ = .ok ⟨side.place front found [i] back⟩ := by
  rw [insert, splitAt?_eq_some_iff.2 ⟨rfl, rfl, h⟩]

/-- An insertion fails exactly when the identity stands nowhere. -/
theorem insert_eq_error_iff {side : Side} {anchor : InstrId} {i : Instr} {c : Code} {e : Error} :
    c.insert side anchor i = .error e ↔
      e = .noAnchor anchor.val ∧ ∀ x ∈ c.toList, x.id ≠ anchor := by
  rw [insert, ← splitAt?_eq_none_iff]
  split
  next h => simp [h, eq_comm]
  next h => simp [h]

/-- Takes out the instruction of this identity; `InstructionStream.remove`. -/
def remove (id : InstrId) (c : Code) : Except Error (Instr × Code) :=
  match splitAt? id c.toList with
  | none => .error (.noAnchor id.val)
  | some (front, found, back) => .ok (found, ⟨front ++ back⟩)

/-- The first instruction of the identity is taken out, and all others stay. -/
theorem remove_eq_ok_iff {id : InstrId} {c : Code} {i : Instr} {rest : Code} :
    c.remove id = .ok (i, rest) ↔ ∃ front back, c.toList = front ++ i :: back ∧ i.id = id ∧
      (∀ x ∈ front, x.id ≠ id) ∧ rest = ⟨front ++ back⟩ := by
  constructor
  · intro h
    rw [remove] at h
    split at h
    next => cases h
    next front found back hs =>
      cases h
      obtain ⟨hl, hid, hf⟩ := splitAt?_eq_some_iff.mp hs
      exact ⟨front, back, hl, hid, hf, rfl⟩
  · rintro ⟨front, back, hl, hid, hf, rfl⟩
    rw [remove, splitAt?_eq_some_iff.mpr ⟨hl, hid, hf⟩]

/-- Lays out instructions one behind the other from an offset on; the loop of
`InstructionStream.recompute_offsets`. -/
def layOut (offset : Int32) : List Instr → List Instr
  | [] => []
  | i :: rest => { i with offset } :: layOut (Instr.advance offset i.size) rest

/-- Laying out keeps identities. -/
theorem map_id_layOut (offset : Int32) (l : List Instr) :
    (layOut offset l).map (·.id) = l.map (·.id) := by
  induction l generalizing offset with
  | nil => rfl
  | cons i rest ih => rw [layOut, List.map_cons, List.map_cons, ih]

/-- The code laid out from offset zero; `InstructionStream.recompute_offsets`. -/
def relayout (c : Code) : Code := ⟨layOut 0 c.toList⟩

end Code

end Cil
