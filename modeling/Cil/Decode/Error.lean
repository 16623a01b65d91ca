import Cil.Json.NumberText
import Cil.Text.Quoted

/-!
# Decoding errors

Why a text is not the written form of a value, and the sentence that says so. A message is that
sentence and then the place in the text at which the reader stopped, which the reader tells.
-/

namespace Cil

/-- What a decoder met in place of what it expected. -/
inductive Found
  | null
  | bool (value : Bool)
  | int (value : Int)
  | float (bits : UInt64)
  | string (value : String)
  | sequence
  | map
  /-- The bare name of a variant that has contents. -/
  | bareVariant
  deriving DecidableEq, Repr

namespace Found

/-- The wording of what was met. -/
def text : Found → String
  | .null => "null"
  | .bool b => "boolean `" ++ toString b ++ "`"
  | .int n => "integer `" ++ toString n ++ "`"
  | .float bits => "floating point `" ++ Json.doubleText bits ++ "`"
  | .string s => "string " ++ Text.quote s
  | .sequence => "sequence"
  | .map => "map"
  | .bareVariant => "unit variant"

end Found

/-- A place in a text, as its reader counts lines and columns. -/
structure Position where
  line : Nat
  column : Nat
  deriving DecidableEq, Repr

namespace Position

/-- The wording of a place. -/
def text (p : Position) : String :=
  " at line " ++ toString p.line ++ " column " ++ toString p.column

end Position

/-- Why decoding fails. -/
inductive DecodeError
  /-- The reader met something that is not JSON, denotes no value or is nested too deeply. -/
  | malformed
  | missingField (name : String)
  | duplicateField (name : String)
  | wrongKind (found : Found) (expected : String)
  | outOfRange (value : Int) (expected : String)
  /-- A record written as an array of so many items lacks one of its fields. -/
  | tooFewItems (items : Nat) (title : String) (fields : Nat)
  | tooManyItems
  /-- The place holds no single named variant. -/
  | noVariant
  | unknownVariant (name : String) (known : List String)
  | sizeTooSmall (size : Int)
  | notTypeRef
  deriving DecidableEq, Repr

namespace DecodeError

/-- The sentence that reports the error. -/
def message : DecodeError → String
  | .malformed => "malformed JSON"
  | .missingField name => "missing field `" ++ name ++ "`"
  | .duplicateField name => "duplicate field `" ++ name ++ "`"
  | .wrongKind found expected => "invalid type: " ++ found.text ++ ", expected " ++ expected
  | .outOfRange value expected =>
    "invalid value: " ++ (Found.int value).text ++ ", expected " ++ expected
  | .tooFewItems items title fields =>
    "invalid length " ++ toString items ++ ", expected " ++ title ++ " with " ++ toString fields ++
      (if fields = 1 then " element" else " elements")
  | .tooManyItems => "trailing characters"
  | .noVariant => "expected value"
  | .unknownVariant name known =>
    "unknown variant `" ++ name ++ "`, expected one of " ++
      ", ".intercalate (known.map fun k ↦ "`" ++ k ++ "`")
  | .sizeTooSmall size => "instruction size must be at least 1, got " ++ toString size
  | .notTypeRef => "data did not match any variant of untagged enum TypeRef"

/-- The message of the error, for a reader that stopped at this place. -/
def messageAt (e : DecodeError) (place : Position) : String := e.message ++ place.text

end DecodeError

/-- The error of a value of the wrong kind; a flaw has no kind. -/
def Json.mismatch (expected : String) : Json → DecodeError
  | .null => .wrongKind .null expected
  | .bool b => .wrongKind (.bool b) expected
  | .number (.int n) => .wrongKind (.int n) expected
  | .number (.float bits) => .wrongKind (.float bits) expected
  | .string s => .wrongKind (.string s) expected
  | .array _ => .wrongKind .sequence expected
  | .object _ => .wrongKind .map expected
  | .torn _ _ => .wrongKind .map expected
  | .flaw _ => .malformed

end Cil
