import Cil.Error
import Cil.Tree.Node

/-!
# Covered offsets

The code that a part of a tree covers: the ranges of all expressions in it, former ones included,
and the first and the last offset of these. The two ends treat an uncovered part differently:
the last offset is then that of the empty range, which callers test first, and asking for the
first offset is an error.
-/

namespace Cil

/-- A part of a tree, with its expressions in source order; `IlOffsets`. -/
class Part (α : Type) where
  exprs : α → List Expr

instance : Part Expr := ⟨Expr.exprs⟩

instance : Part Node := ⟨Node.exprs⟩

instance : Part Block := ⟨Block.exprs⟩

namespace Part

variable {α : Type} [Part α]

/-- The ranges that the part covers, in source order; `IlOffsets.contributing_ranges`. -/
def ranges (part : α) : List OffsetRange := (exprs part).flatMap Expr.allRanges

/-- The first offset that the part covers; `IlOffsets.first_il_offset`. -/
def firstOffset (part : α) : Except Error Int32 :=
  match ((ranges part).map (·.first)).min? with
  | some offset => .ok offset
  | none => .error .noRanges

/-- The last offset that the part covers, or that of the empty range; `IlOffsets.last_il_offset`. -/
def lastOffset (part : α) : Int32 := ((ranges part).map (·.last)).max?.getD OffsetRange.empty.last

/-- The range from the first to the last offset. -/
def span (part : α) : Except Error OffsetRange := do
  return ⟨← firstOffset part, lastOffset part⟩

end Part

end Cil
