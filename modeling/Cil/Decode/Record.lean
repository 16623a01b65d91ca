import Cil.Decode.Scalar

/-!
# Records

A record is written as an object of its fields in any order, or as an array of them in order of
declaration; fields that are not required may be left out. The object form skips members it does
not know and refuses a field given twice, the array form refuses further items. Both report the
first fault in document order, and a missing field only after all else.
-/

namespace Cil.Decode

/-- A field of a record, with the change that its value makes to the record. -/
structure Field (m : Type → Type) (ρ : Type) where
  name : String
  read : Json → m (ρ → ρ)
  isRequired : Bool

/-- The written form of a type of records. -/
structure Record (m : Type → Type) (ρ : Type) where
  title : String
  /-- The record in which every field has its default. -/
  blank : ρ
  /-- The fields in order of declaration. -/
  fields : List (Field m ρ)

variable {m : Type → Type} [Monad m] {ρ α : Type}

namespace Field

/-- A field that must be given. -/
def required (name : String) (decode : Json → m α) (put : α → ρ → ρ) : Field m ρ :=
  { name, read := fun v ↦ put <$> decode v, isRequired := true }

/-- A field that keeps its default when it is left out. -/
def defaulted (name : String) (decode : Json → m α) (put : α → ρ → ρ) : Field m ρ :=
  { name, read := fun v ↦ put <$> decode v, isRequired := false }

end Field

namespace Record

variable [MonadExceptOf DecodeError m]

/-- The field of this name. -/
def field? (r : Record m ρ) (name : String) : Option (Field m ρ) :=
  r.fields.find? (·.name == name)

/-- The first required field that is not among the given names. -/
def missing? (r : Record m ρ) (given : List String) : Option (Field m ρ) :=
  r.fields.find? fun f ↦ f.isRequired && !given.contains f.name

/-- The written form in which no field is required. -/
def lenient (r : Record m ρ) : Record m ρ :=
  { r with fields := r.fields.map fun f ↦ { f with isRequired := false } }

/-- Takes in the members of an object, after those with the given field names. -/
def ofMembers (r : Record m ρ) (given : List String) (draft : ρ) :
    List (String × Json) → m ρ
  | [] => match r.missing? given with
    | some f => throw (.missingField f.name)
    | none => pure draft
  | (name, v) :: rest => match r.field? name with
    | none => if v.isWellFormed then ofMembers r given draft rest else throw .malformed
    | some f =>
      if given.contains name then throw (.duplicateField name)
      else do
        let update ← f.read v
        ofMembers r (name :: given) (update draft) rest

/-- Takes in the items of an array for the given fields, the first of which has this index. -/
def ofItems (r : Record m ρ) (index : Nat) (draft : ρ) :
    List (Field m ρ) → List Json → m ρ
  | [], [] => pure draft
  | [], _ :: _ => throw .tooManyItems
  | f :: fields, [] =>
    if f.isRequired then throw (.tooFewItems index r.title r.fields.length)
    else ofItems r (index + 1) draft fields []
  | f :: fields, v :: rest => do
    let update ← f.read v
    ofItems r (index + 1) (update draft) fields rest

/-- Decodes a record in either form. A torn object fails behind its members. -/
def decode (r : Record m ρ) : Json → m ρ
  | .object members => r.ofMembers [] r.blank members
  | .torn members _ => do
    let _ ← r.lenient.ofMembers [] r.blank members
    throw .malformed
  | .array items => r.ofItems 0 r.blank r.fields items
  | v => throw (v.mismatch r.title)

end Record

end Cil.Decode
