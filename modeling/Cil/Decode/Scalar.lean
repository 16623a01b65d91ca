import Cil.Decode.Error

/-!
# Scalars, lists and optional values

Decoders of the values that every record is made of. An integer must be written as one and lie in
the range of its type.
-/

namespace Cil.Decode

/-- A string. -/
def string : Json → Except DecodeError String
  | .string s => .ok s
  | v => .error (v.mismatch "a string")

/-- A boolean. -/
def bool : Json → Except DecodeError Bool
  | .bool b => .ok b
  | v => .error (v.mismatch "a boolean")

/-- The value that carries nothing. -/
def unit : Json → Except DecodeError Unit
  | .null => .ok ()
  | v => .error (v.mismatch "unit")

/-- An integer between two bounds, of a type with this title. -/
def integer (low high : Int) (title : String) : Json → Except DecodeError Int
  | .number (.int n) => if low ≤ n ∧ n ≤ high then .ok n else .error (.outOfRange n title)
  | v => .error (v.mismatch title)

/-- A signed integer of 32 bits. -/
def int32 (v : Json) : Except DecodeError Int32 :=
  (integer Int32.minValue.toInt Int32.maxValue.toInt "i32" v).map Int32.ofInt

/-- An unsigned integer of 16 bits. -/
def uint16 (v : Json) : Except DecodeError UInt16 :=
  (integer 0 (UInt16.size - 1) "u16" v).map fun n ↦ UInt16.ofNat n.toNat

variable {m : Type → Type} [Monad m] {α : Type}

/-- A list, its items decoded in order. -/
def list [MonadExceptOf DecodeError m] (item : Json → m α) : Json → m (List α)
  | .array items => items.mapM item
  | v => throw (v.mismatch "a sequence")

/-- A value that null leaves out. -/
def optional (item : Json → m α) : Json → m (Option α)
  | .null => pure none
  | v => some <$> item v

end Cil.Decode
