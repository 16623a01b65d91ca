import Cil.Code.Basic
import Cil.Instr.Decode

/-!
# Written code

Code is written as the list of its instructions.
-/

namespace Cil.Code

/-- Decodes code; the derived reader of `InstructionStream`. -/
def decode (v : Json) : DecodeM Code := Code.mk <$> Decode.list Instr.decode v

end Cil.Code
