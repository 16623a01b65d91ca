import Cil.Opcode.Basic
import Cil.Text.Hex

/-!
# Instructions

An instruction is an opcode at an offset, with an identity of its own: two instructions that look
alike are still two. Identities are handed out by a supply in ascending order, so that a later one
differs from all before it.
-/

namespace Cil

/-- The identity of an instruction. -/
structure InstrId where
  val : Nat
  deriving DecidableEq, Repr, Inhabited

namespace InstrId

/-- The identity as log lines show it. -/
def text (id : InstrId) : String := "#" ++ toString id.val

end InstrId

/-- Where identities come from: all from `next` on are still to be handed out. -/
structure Supply where
  next : Nat
  deriving DecidableEq, Repr, Inhabited

namespace Supply

/-- The supply that has handed out nothing. -/
def full : Supply := ⟨1⟩

/-- Hands out an identity; `InstrId.fresh`. -/
def take (s : Supply) : InstrId × Supply := (⟨s.next⟩, ⟨s.next + 1⟩)

/-- The identity has been handed out. -/
def hasIssued (s : Supply) (id : InstrId) : Bool := 1 ≤ id.val ∧ id.val < s.next

/-- The identity handed out is new. -/
theorem not_hasIssued_take (s : Supply) : s.hasIssued s.take.1 = false := by
  simp [hasIssued, take]

end Supply

/-- An opcode at an offset; `Instruction`. -/
structure Instr where
  id : InstrId
  offset : Int32
  opcode : Opcode
  deriving DecidableEq, Repr

namespace Instr

/-- The encoded size in bytes; `Instruction.size`. -/
def size (i : Instr) : Int32 := i.opcode.size

/-- The assembly text; `Instruction.to_asm`. -/
def assembly (i : Instr) : String := i.opcode.assembly

/-- The line of a code listing: the offset and the assembly text. -/
def text (i : Instr) : String := Text.offsetLabel i.offset ++ ": " ++ i.assembly

/-- The instruction of an opcode at an offset, under a new identity; `Instruction.at`, and at offset
zero `Instruction.new`. -/
def create (offset : Int32) (opcode : Opcode) (s : Supply) : Instr × Supply :=
  let (id, s) := s.take
  ({ id, offset, opcode }, s)

/-- A copy is another instruction: it differs in identity only; `Instruction.clone`. -/
def duplicate (i : Instr) (s : Supply) : Instr × Supply := create i.offset i.opcode s

end Instr

end Cil
