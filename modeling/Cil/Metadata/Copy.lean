import Cil.Metadata.TypeDef

/-!
# Copies

A copy of an instruction is another instruction, with an identity of its own (`Instr.duplicate`). A
copy of code keeps the identities instead, so that whoever knows an instruction finds it in the copy
as well; and so does a copy of all that has code in it, which is made part by part.
-/

namespace Cil

/-- Copying, with a supply at hand for what needs an identity. -/
abbrev CopyM := StateM Supply

/-- The same instruction once more; `Instruction.with_same_identity`. -/
def Instr.again (i : Instr) : Instr := { id := i.id, offset := i.offset, opcode := i.opcode }

/-- Copies code; `InstructionStream.clone`. -/
def Code.copy (c : Code) : CopyM Code := return ⟨c.toList.map Instr.again⟩

/-- Copies a method body. -/
def MethodBody.copy (b : MethodBody) : CopyM MethodBody := return { code := ← b.code.copy }

/-- Copies a method. -/
def MethodDef.copy (m : MethodDef) : CopyM MethodDef :=
  return { m with body := ← m.body.mapM MethodBody.copy }

/-- Copies a property. -/
def PropertyDef.copy (p : PropertyDef) : CopyM PropertyDef := do
  let getter ← p.getter.mapM MethodDef.copy
  let setter ← p.setter.mapM MethodDef.copy
  return { p with getter, setter }

/-- Copies a type; the derived `TypeDef.clone`. -/
def TypeDef.copy (d : TypeDef) : CopyM TypeDef := do
  let methods ← d.methods.mapM MethodDef.copy
  let properties ← d.properties.mapM PropertyDef.copy
  return { d with methods, properties }

end Cil
