import Cil.Code.Basic

/-!
# Log lines

What is worth telling about a call that goes well, and the line that tells it.
-/

namespace Cil

/-- What a log line tells. -/
inductive LogEvent
  | inserted (count : Nat) (side : Code.Side) (anchor : InstrId)
  | duplicateType (name : String)
  | unresolvedType (name : String)
  deriving DecidableEq, Repr

namespace LogEvent

/-- The level of the line. -/
def level : LogEvent → String
  | .inserted _ _ _ => "DEBUG"
  | .duplicateType _ => "WARN"
  | .unresolvedType _ => "TRACE"

/-- The sentence on the line. -/
def message : LogEvent → String
  | .inserted count side anchor =>
    "inserted " ++ toString count ++ " instruction(s) " ++ side.text ++ " " ++ anchor.text
  | .duplicateType name => "Duplicate type definition " ++ name
  | .unresolvedType name => "Unresolved type " ++ name ++ " implements nothing"

/-- The whole line. -/
def line (e : LogEvent) : String := e.level ++ " " ++ e.message

end LogEvent

end Cil
