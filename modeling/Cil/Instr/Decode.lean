import Cil.Decode.Text
import Cil.Instr.Basic
import Cil.Opcode.Decode

/-!
# Written instructions

An instruction is written as a record of its offset and its opcode, without its identity: each
decoding hands out a new one. The array form takes it when the record begins, the object
form when the record is complete, so that only a failing array form uses one up.
-/

namespace Cil

/-- Decoding that hands out identities, also where it fails. -/
abbrev DecodeM := ExceptT DecodeError (StateM Supply)

namespace DecodeM

/-- Hands out an identity. -/
def fresh : DecodeM InstrId := modifyGet Supply.take

/-- A decoder that hands out nothing. -/
def ofExcept {α : Type} : Except DecodeError α → DecodeM α
  | .ok a => pure a
  | .error e => throw e

/-- Decodes a text, given the supply, and returns what is left of it. -/
def runText {α : Type} (decode : Json → DecodeM α) (s : String) (supply : Supply) :
    Except DecodeError α × Supply :=
  (Decode.text decode s).run.run supply

end DecodeM

namespace Instr

/-- The record form of an instruction: its offset and its opcode. -/
def record : Decode.Record (Except DecodeError) (Int32 × Opcode) where
  title := "struct Instruction"
  blank := (0, .nop)
  fields := [
    .defaulted "offset" Decode.int32 fun n r ↦ (n, r.2),
    .required "opcode" Opcode.decode fun op r ↦ (r.1, op)]

/-- Decodes an instruction; the derived reader of `Instruction`. -/
def decode (v : Json) : DecodeM Instr :=
  match v with
  | .array _ => do
    let id ← DecodeM.fresh
    let (offset, opcode) ← DecodeM.ofExcept (record.decode v)
    return { id, offset, opcode }
  | _ => do
    let (offset, opcode) ← DecodeM.ofExcept (record.decode v)
    let id ← DecodeM.fresh
    return { id, offset, opcode }

end Instr

end Cil
