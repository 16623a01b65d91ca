import Cil.Text.Quoted

/-!
# Opcodes

The operation of an instruction with its inline operand, its size in bytes and its assembly text.
Small indices and constants have encodings of their own: the smallest are part of the mnemonic, and
others take a byte. Mnemonic, size and shown operand each tell from the operand which encoding it
has.
-/

namespace Cil

/-- An operation with its operand; `OpCode`. -/
inductive Opcode
  | nop
  | ldarg (index : UInt16)
  | ldloc (index : UInt16)
  | stloc (index : UInt16)
  | ldcI4 (value : Int32)
  | ldstr (literal : String)
  | ldnull
  | ldfld (field : String)
  | stfld (field : String)
  | call (method : String)
  | callvirt (method : String)
  | newobj (method : String)
  | pop
  | dup
  | ret
  | throw
  /-- Any other operation, with the size that was stated for it. -/
  | other (mnemonic : String) (size : Int32)
  deriving DecidableEq, Repr

namespace Opcode

/-- The mnemonic of an operation on an argument or a local, by its index; `OpCode.indexed`. -/
def indexedMnemonic (base : String) (n : UInt16) : String :=
  if n ≤ 3 then base ++ "." ++ toString n.toNat
  else if 4 ≤ n ∧ n ≤ 255 then base ++ ".s"
  else base

/-- The mnemonic of the operation that loads an integer constant. -/
def constantMnemonic (n : Int32) : String :=
  if n = -1 then "ldc.i4.m1"
  else if 0 ≤ n ∧ n ≤ 8 then "ldc.i4." ++ toString n.toInt
  else if -128 ≤ n ∧ n ≤ 127 then "ldc.i4.s"
  else "ldc.i4"

/-- The mnemonic, which is that of the shortest encoding; `OpCode.mnemonic`. -/
def mnemonic : Opcode → String
  | .nop => "nop"
  | .ldarg n => indexedMnemonic "ldarg" n
  | .ldloc n => indexedMnemonic "ldloc" n
  | .stloc n => indexedMnemonic "stloc" n
  | .ldcI4 n => constantMnemonic n
  | .ldstr _ => "ldstr"
  | .ldnull => "ldnull"
  | .ldfld _ => "ldfld"
  | .stfld _ => "stfld"
  | .call _ => "call"
  | .callvirt _ => "callvirt"
  | .newobj _ => "newobj"
  | .pop => "pop"
  | .dup => "dup"
  | .ret => "ret"
  | .throw => "throw"
  | .other mnemonic _ => mnemonic

/-- The size of an operation on an argument or a local: the full encoding has an opcode of two bytes
and an index of two. -/
def indexedSize (n : UInt16) : Int32 :=
  if n ≤ 3 then 1 else if 4 ≤ n ∧ n ≤ 255 then 2 else 4

/-- The size of the operation that loads an integer constant: the full encoding has an opcode of one
byte and a constant of four. -/
def constantSize (n : Int32) : Int32 :=
  if -1 ≤ n ∧ n ≤ 8 then 1 else if -128 ≤ n ∧ n ≤ 127 then 2 else 5

/-- The encoded size in bytes, which is at least one; `OpCode.size`. -/
def size : Opcode → Int32
  | .nop => 1
  | .ldarg n => indexedSize n
  | .ldloc n => indexedSize n
  | .stloc n => indexedSize n
  | .ldcI4 n => constantSize n
  | .ldstr _ => 5
  | .ldnull => 1
  | .ldfld _ => 5
  | .stfld _ => 5
  | .call _ => 5
  | .callvirt _ => 5
  | .newobj _ => 5
  | .pop => 1
  | .dup => 1
  | .ret => 1
  | .throw => 1
  | .other _ size => if 1 ≤ size then size else 1

/-- An index that is not part of the mnemonic. -/
def indexOperand? (n : UInt16) : Option String := if 3 < n then some (toString n.toNat) else none

/-- A constant that is not part of the mnemonic. -/
def constantOperand? (n : Int32) : Option String :=
  if -1 ≤ n ∧ n ≤ 8 then none else some (toString n.toInt)

/-- The text of the operand, where it is not part of the mnemonic; `OpCode.operand`. -/
def operand? : Opcode → Option String
  | .nop => none
  | .ldarg n => indexOperand? n
  | .ldloc n => indexOperand? n
  | .stloc n => indexOperand? n
  | .ldcI4 n => constantOperand? n
  | .ldstr literal => some (Text.quote literal)
  | .ldnull => none
  | .ldfld field => some field
  | .stfld field => some field
  | .call method => some method
  | .callvirt method => some method
  | .newobj method => some method
  | .pop => none
  | .dup => none
  | .ret => none
  | .throw => none
  | .other _ _ => none

/-- The assembly text: the mnemonic, and the operand behind a space; `Instruction.to_asm`. -/
def assembly (op : Opcode) : String :=
  match op.operand? with
  | some operand => op.mnemonic ++ " " ++ operand
  | none => op.mnemonic

/-- Every operation on an argument or a local takes at least one byte. -/
theorem one_le_indexedSize (n : UInt16) : 1 ≤ (indexedSize n).toInt := by
  unfold indexedSize
  split
  · decide
  · split <;> decide

/-- Every load of a constant takes at least one byte. -/
theorem one_le_constantSize (n : Int32) : 1 ≤ (constantSize n).toInt := by
  unfold constantSize
  split
  · decide
  · split <;> decide

/-- Every operation takes at least one byte. -/
theorem one_le_size (op : Opcode) : 1 ≤ op.size.toInt := by
  cases op with
  | ldarg n | ldloc n | stloc n => exact one_le_indexedSize n
  | ldcI4 n => exact one_le_constantSize n
  | other m n =>
    simp only [size]
    split
    · exact Int32.le_iff_toInt_le.mp (by assumption)
    · decide
  | _ => simp only [size]; decide

end Opcode

end Cil
