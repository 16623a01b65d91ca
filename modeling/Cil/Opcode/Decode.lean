import Cil.Decode.Record
import Cil.Opcode.Basic

/-!
# Written opcodes

An opcode is written as its name when it has no operand, and as an object from its name to its
operand otherwise. The size of an operation that is not modelled must be at least one.
-/

namespace Cil

namespace Opcode

/-- What is written beside the name of an opcode. -/
inductive Operand
  /-- Nothing, or null. -/
  | none (op : Opcode)
  | index (make : UInt16 → Opcode)
  | constant (make : Int32 → Opcode)
  | text (make : String → Opcode)
  /-- The mnemonic and the size. -/
  | mnemonicAndSize

/-- The names of opcodes with what is written beside them. -/
def variants : List (String × Operand) := [
  ("nop", .none .nop),
  ("ldarg", .index .ldarg),
  ("ldloc", .index .ldloc),
  ("stloc", .index .stloc),
  ("ldc_i4", .constant .ldcI4),
  ("ldstr", .text .ldstr),
  ("ldnull", .none .ldnull),
  ("ldfld", .text .ldfld),
  ("stfld", .text .stfld),
  ("call", .text .call),
  ("callvirt", .text .callvirt),
  ("newobj", .text .newobj),
  ("pop", .none .pop),
  ("dup", .none .dup),
  ("ret", .none .ret),
  ("throw", .none .throw),
  ("other", .mnemonicAndSize)]

/-- What is written beside a name. -/
def operandOf (name : String) : Except DecodeError Operand :=
  match variants.find? (·.1 == name) with
  | some (_, operand) => .ok operand
  | none => .error (.unknownVariant name (variants.map Prod.fst))

/-- The size of an operation, of at least one byte; `positive_size`. -/
def positiveSize (v : Json) : Except DecodeError Int32 := do
  let size ← Decode.int32 v
  if size < 1 then .error (.sizeTooSmall size.toInt) else .ok size

/-- The record form of an operation that is not modelled. -/
def otherRecord : Decode.Record (Except DecodeError) (String × Int32) where
  title := "struct variant OpCode::Other"
  blank := ("", 1)
  fields := [
    .required "mnemonic" Decode.string fun s r ↦ (s, r.2),
    .required "size" positiveSize fun n r ↦ (r.1, n)]

namespace Operand

/-- The opcode whose name stands alone. -/
def alone : Operand → Except DecodeError Opcode
  | .none op => .ok op
  | .mnemonicAndSize => .error (.wrongKind .bareVariant "struct variant")
  | _ => .error (.wrongKind .bareVariant "newtype variant")

/-- The opcode whose name stands before a value. -/
def decode (v : Json) : Operand → Except DecodeError Opcode
  | .none op => do
    Decode.unit v
    return op
  | .index make => make <$> Decode.uint16 v
  | .constant make => make <$> Decode.int32 v
  | .text make => make <$> Decode.string v
  | .mnemonicAndSize => do
    let (mnemonic, size) ← otherRecord.decode v
    return .other mnemonic size

end Operand

/-- Decodes an opcode. -/
def decode : Json → Except DecodeError Opcode
  | .string name => do (← operandOf name).alone
  | .object ((name, v) :: rest) => do
    let op ← (← operandOf name).decode v
    if rest.isEmpty then .ok op else .error .noVariant
  | .torn ((name, v) :: _) _ => do
    let _ ← (← operandOf name).decode v
    .error .noVariant
  | .torn [] _ => .error .malformed
  | .flaw _ => .error .malformed
  | _ => .error .noVariant

end Opcode

end Cil
