import Cil.Decode.Error

/-!
# Type references

A reference names a type or is a generic parameter with its constraints. The simple name of a type
is what is left of its full name without namespace and declaring type; separators inside type
arguments do not count.
-/

namespace Cil

/-- A reference to a type. -/
inductive TypeRef
  | named (fullName : String)
  | generic (name : String) (constraints : List TypeRef)
  deriving Inhabited

namespace TypeRef

mutual

/-- Decides equality of references. -/
def decEq : (a b : TypeRef) → Decidable (a = b)
  | .named x, .named y =>
    if h : x = y then .isTrue (by rw [h]) else .isFalse (by simp [h])
  | .named _, .generic _ _ => .isFalse (by simp)
  | .generic _ _, .named _ => .isFalse (by simp)
  | .generic x cs, .generic y ds =>
    if h : x = y then
      match decEqList cs ds with
      | .isTrue hs => .isTrue (by rw [h, hs])
      | .isFalse hs => .isFalse (by simp [hs])
    else .isFalse (by simp [h])

/-- Decides equality of lists of references. -/
def decEqList : (as bs : List TypeRef) → Decidable (as = bs)
  | [], [] => .isTrue rfl
  | [], _ :: _ => .isFalse (by simp)
  | _ :: _, [] => .isFalse (by simp)
  | a :: as, b :: bs =>
    match decEq a b with
    | .isTrue h =>
      match decEqList as bs with
      | .isTrue hs => .isTrue (by rw [h, hs])
      | .isFalse hs => .isFalse (by simp [hs])
    | .isFalse h => .isFalse (by simp [h])

end

instance : DecidableEq TypeRef := decEq

/-- The character separates a name from its namespace or declaring type. -/
def isSeparator (c : Char) : Bool := c = '.' || c = '/'

/-- What follows the last separator. -/
def afterSeparators (cs : List Char) : List Char :=
  (cs.reverse.takeWhile fun c ↦ !isSeparator c).reverse

/-- The simple name of a type with this full name: the separators before the first type argument are
the ones that count; `simple_name`. -/
def simpleName (fullName : String) : String :=
  let cs := fullName.toList
  String.ofList (afterSeparators (cs.takeWhile (· != '<')) ++ cs.dropWhile (· != '<'))

/-- The full name; for a generic parameter its own name; `TypeRef.full_name`. -/
def fullName : TypeRef → String
  | .named fullName => fullName
  | .generic name _ => name

/-- The name without namespace and declaring type; `TypeRef.name`. -/
def name (t : TypeRef) : String := simpleName t.fullName

/-- The reference is a generic parameter; `TypeRef.is_generic_parameter`. -/
def isGeneric : TypeRef → Bool
  | .named _ => false
  | .generic _ _ => true

/-- The constraints of a generic parameter; `TypeRef.constraints`. -/
def constraints : TypeRef → List TypeRef
  | .named _ => []
  | .generic _ constraints => constraints

mutual

/-- The reference that a value writes: a string names a type, an object with a name and possibly
constraints is a generic parameter. -/
def ofJson? : Json → Option TypeRef
  | .string fullName => some (.named fullName)
  | .object members => ofMembers? none none members
  | _ => none

/-- The generic parameter of an object, given the name and the constraints of earlier members. -/
def ofMembers? (name : Option String) (constraints : Option (List TypeRef)) :
    List (String × Json) → Option TypeRef
  | [] => name.map fun name ↦ .generic name (constraints.getD [])
  | (key, v) :: rest =>
    if key = "name" then
      match name, v with
      | none, .string s => ofMembers? (some s) constraints rest
      | _, _ => none
    else if key = "constraints" then
      match constraints, v with
      | none, .array items => match ofItems? items with
        | some refs => ofMembers? name (some refs) rest
        | none => none
      | _, _ => none
    else ofMembers? name constraints rest

/-- The references of a list. -/
def ofItems? : List Json → Option (List TypeRef)
  | [] => some []
  | v :: rest => match ofJson? v with
    | some ref => (ofItems? rest).map (ref :: ·)
    | none => none

end

/-- Decodes a reference. The value is read throughout before it is looked at, and there is one error
for everything readable that is not a reference. -/
def decode (v : Json) : Except DecodeError TypeRef :=
  if v.isReadable then
    match ofJson? v with
    | some ref => .ok ref
    | none => .error .notTypeRef
  else .error .malformed

end TypeRef

end Cil
