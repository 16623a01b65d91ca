/-!
# Refilling lists

A list is filled anew from items that may depend on what it held before. These are all
taken first, and only then does the old contents go.
-/

namespace Cil

/-- Where the new items come from. -/
inductive Refill (α : Type)
  /-- They are given. -/
  | given (items : List α)
  /-- They are computed from what the list held. -/
  | derived (items : List α → List α)

namespace Refill

/-- What a list holds after it is filled anew; `replace_collection`. -/
def apply {α : Type} : Refill α → List α → List α
  | given items, _ => items
  | derived items, old => items old

end Refill

end Cil
