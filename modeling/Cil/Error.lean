/-!
# Errors

What goes wrong in a query or a weaving step, the sentence that reports it, and whether the work
can go on.
-/

namespace Cil

/-- How a lookup by offset was phrased. -/
inductive OffsetRelation
  | at
  | before
  deriving DecidableEq, Repr

namespace OffsetRelation

/-- The wording of the relation. -/
def text : OffsetRelation → String
  | .at => "at"
  | .before => "before"

end OffsetRelation

/-- What goes wrong. -/
inductive Error
  /-- No instruction stands in this relation to the offset. -/
  | noInstruction (relation : OffsetRelation) (offset : Int32)
  /-- The anchor of an insertion or removal is not in the code. -/
  | noAnchor (id : Nat)
  /-- A tree has no offsets. -/
  | noRanges
  /-- Type metadata cannot be read. -/
  | metadata (reason : String)
  /-- Options cannot be read. -/
  | options (reason : String)
  deriving DecidableEq, Repr

/-- Whether work can go on after an error; `ErrorSeverity`. -/
inductive Severity
  /-- The caller broke a promise. -/
  | fatal
  /-- The input can be mended. -/
  | recoverable
  deriving DecidableEq, Repr

namespace Severity

/-- The wording of the severity. -/
def text : Severity → String
  | .fatal => "fatal"
  | .recoverable => "recoverable"

end Severity

namespace Error

/-- The sentence that reports the error. -/
def message : Error → String
  | .noInstruction relation offset =>
    "No instruction " ++ relation.text ++ " offset " ++ toString offset.toInt
  | .noAnchor id => "Anchor instruction " ++ toString id ++ " is not in the stream"
  | .noRanges => "Node has no IL ranges"
  | .metadata reason => "Metadata error: " ++ reason
  | .options reason => "Config error: " ++ reason

/-- Faulty input is recoverable, a broken promise is not; `Error.classify`. -/
def severity : Error → Severity
  | .noInstruction _ _ => .fatal
  | .noAnchor _ => .fatal
  | .noRanges => .fatal
  | .metadata _ => .recoverable
  | .options _ => .recoverable

end Error

end Cil
