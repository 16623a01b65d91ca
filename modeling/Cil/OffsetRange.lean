import Cil.Decode.Record
import Cil.Text.Hex

/-!
# Ranges of code offsets

A range has both its ends. A range whose first offset lies behind its last holds nothing; the
sentinel `empty` is the usual one of these.
-/

namespace Cil

/-- The offsets from `first` to `last`, ends included; `IlRange`. -/
structure OffsetRange where
  first : Int32
  last : Int32
  deriving DecidableEq, Repr

namespace OffsetRange

/-- The sentinel of what covers no code; `IlRange.EMPTY`. -/
def empty : OffsetRange := ⟨0, -1⟩

instance : Inhabited OffsetRange := ⟨empty⟩

/-- No offset lies in the range; `IlRange.is_empty`. -/
def isEmpty (r : OffsetRange) : Bool := r.last < r.first

/-- The offset lies in the range; `IlRange.contains`. -/
def contains (r : OffsetRange) (offset : Int32) : Bool := r.first ≤ offset ∧ offset ≤ r.last

instance : Membership Int32 OffsetRange := ⟨fun r offset ↦ r.contains offset = true⟩

/-- Membership compares with both ends. -/
theorem mem_iff {r : OffsetRange} {offset : Int32} :
    offset ∈ r ↔ r.first ≤ offset ∧ offset ≤ r.last := by
  simp [Membership.mem, contains]

/-- A range is empty exactly when it has no member. -/
theorem isEmpty_iff {r : OffsetRange} : r.isEmpty = true ↔ ∀ offset, ¬ offset ∈ r := by
  simp only [isEmpty, decide_eq_true_eq, mem_iff, Int32.lt_iff_toInt_lt, Int32.le_iff_toInt_le]
  constructor
  · intro h offset
    omega
  · intro h
    have := h r.first
    omega

/-- The range in the notation of code listings. -/
def text (r : OffsetRange) : String :=
  if r.isEmpty then "IL_empty" else Text.offsetLabel r.first ++ "-" ++ Text.offsetLabel r.last

/-- The written form of a range: an object of its ends in decimal, without blanks. -/
def encode (r : OffsetRange) : String :=
  "\x7b\"from\":" ++ toString r.first.toInt ++ ",\"to\":" ++ toString r.last.toInt ++ "\x7d"

/-- The record form of a range. -/
def record : Decode.Record (Except DecodeError) OffsetRange where
  title := "struct IlRange"
  blank := empty
  fields := [
    .required "from" Decode.int32 fun n r ↦ { r with first := n },
    .required "to" Decode.int32 fun n r ↦ { r with last := n }]

/-- Decodes a range. -/
def decode : Json → Except DecodeError OffsetRange := record.decode

end OffsetRange

end Cil
