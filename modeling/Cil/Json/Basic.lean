/-!
# JSON values

The value of a document as it was written: members keep their order and their repetitions, and a
number knows whether it is an integer. A place that holds no value holds a `Flaw` that says
whether the place may still be skipped. A value is well formed when its text is JSON to the end, and
readable when besides every place in it denotes a value.
-/

namespace Cil

/-- A number is an integer of at most 64 bits, or the bits of the double its text denotes. -/
inductive Json.Number
  | int (value : Int)
  | float (bits : UInt64)
  deriving DecidableEq, Repr

/-- What a place without a value holds instead. -/
inductive Json.Flaw
  /-- The text stops being JSON at this place, and nothing after it was read. -/
  | broken
  /-- The text is JSON at this place but denotes no value: it can be skipped, but not read. -/
  | unreadable
  deriving DecidableEq, Repr

/-- A value, with the members of an object in document order. -/
inductive Json
  | null
  | bool (value : Bool)
  | number (value : Json.Number)
  | string (value : String)
  | array (items : List Json)
  | object (members : List (String × Json))
  /-- An object with a name that denotes no string: the members before it, and what is there in
  place of the others. -/
  | torn (members : List (String × Json)) (rest : Json.Flaw)
  | flaw (kind : Json.Flaw)
  deriving Inhabited

namespace Json

/-- The value of the first member of this name. -/
def member? (name : String) (members : List (String × Json)) : Option Json :=
  (members.find? fun m ↦ m.1 == name).map Prod.snd

mutual

/-- No place inside the value is one of the given flaws. -/
def lacks (bad : Flaw → Bool) : Json → Bool
  | .null => true
  | .bool _ => true
  | .number _ => true
  | .string _ => true
  | .array items => itemsLack bad items
  | .object members => membersLack bad members
  | .torn members rest => membersLack bad members && !bad rest
  | .flaw kind => !bad kind

/-- No place inside the items is one of the given flaws. -/
def itemsLack (bad : Flaw → Bool) : List Json → Bool
  | [] => true
  | v :: rest => lacks bad v && itemsLack bad rest

/-- No place inside the members is one of the given flaws. -/
def membersLack (bad : Flaw → Bool) : List (String × Json) → Bool
  | [] => true
  | (_, v) :: rest => lacks bad v && membersLack bad rest

end

/-- Items lack a flaw when each of them does. -/
theorem itemsLack_eq_all (bad : Flaw → Bool) (items : List Json) :
    itemsLack bad items = items.all (lacks bad) := by
  induction items with
  | nil => rfl
  | cons v rest ih => rw [itemsLack, ih, List.all_cons]

/-- Members lack a flaw when each of their values does. -/
theorem membersLack_eq_all (bad : Flaw → Bool) (members : List (String × Json)) :
    membersLack bad members = members.all fun m ↦ m.2.lacks bad := by
  induction members with
  | nil => rfl
  | cons m rest ih =>
    obtain ⟨name, v⟩ := m
    rw [membersLack, ih, List.all_cons]

/-- The text of the value is JSON to its end. -/
def isWellFormed (v : Json) : Bool := v.lacks (· == .broken)

/-- Every place inside the value can be read. -/
def isReadable (v : Json) : Bool := v.lacks fun _ ↦ true

/-- What stands for a value that is nested too deeply to be read. -/
def tooDeep (v : Json) : Json := .flaw (if v.isWellFormed then .unreadable else .broken)

mutual

/-- The value in which arrays and objects can be read up to a depth of nesting. -/
def clip : Nat → Json → Json
  | 0, .array items => tooDeep (.array items)
  | n + 1, .array items => .array (clipItems n items)
  | 0, .object members => tooDeep (.object members)
  | n + 1, .object members => .object (clipMembers n members)
  | 0, .torn members rest => tooDeep (.torn members rest)
  | n + 1, .torn members rest => .torn (clipMembers n members) rest
  | _, v => v

/-- The items, clipped. -/
def clipItems (depth : Nat) : List Json → List Json
  | [] => []
  | v :: rest => clip depth v :: clipItems depth rest

/-- The members, clipped. -/
def clipMembers (depth : Nat) : List (String × Json) → List (String × Json)
  | [] => []
  | (name, v) :: rest => (name, clip depth v) :: clipMembers depth rest

end

/-- Clipping a list clips each item. -/
theorem clipItems_eq_map (depth : Nat) (items : List Json) :
    clipItems depth items = items.map (clip depth) := by
  induction items with
  | nil => rfl
  | cons v rest ih => rw [clipItems, ih, List.map_cons]

/-- Clipping an object clips each value. -/
theorem clipMembers_eq_map (depth : Nat) (members : List (String × Json)) :
    clipMembers depth members = members.map fun m ↦ (m.1, m.2.clip depth) := by
  induction members with
  | nil => rfl
  | cons m rest ih =>
    obtain ⟨name, v⟩ := m
    rw [clipMembers, ih, List.map_cons]

end Json

end Cil
