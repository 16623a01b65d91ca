import Cil.File
import Cil.Log
import Cil.Metadata.Decode
import Cil.Named

/-!
# Metadata stores

The definitions of a program by full name. A later definition of a name takes the place of an
earlier one; reading a document tells each time that happens. The place is the one at which the
reader of a document stops if the document does not decode.
-/

namespace Cil

/-- Type definitions by full name; `MetadataStore`. -/
structure Store where
  defs : Named TypeDef

namespace Store

/-- A store without definitions; `MetadataStore.new`. -/
def empty : Store := ⟨.empty⟩

instance : Inhabited Store := ⟨empty⟩

/-- The definition of this full name; `MetadataStore.get`. -/
def get? (s : Store) (fullName : String) : Option TypeDef := s.defs.get? fullName

/-- The number of definitions. -/
def size (s : Store) : Nat := s.defs.size

/-- The store has no definition. -/
def isEmpty (s : Store) : Bool := s.defs.entries.isEmpty

/-- The definitions in the order in which their names first came up; `MetadataStore.types`. -/
def types (s : Store) : List TypeDef := s.defs.values

/-- Adds a definition, and returns the one it takes the place of; `MetadataStore.insert`. -/
def insert (d : TypeDef) (s : Store) : Option TypeDef × Store :=
  (s.get? d.fullName, ⟨s.defs.set d.fullName d⟩)

/-- The definition a reference leads to, none for a generic parameter; `TypeProvider.resolve` for
`MetadataStore`. -/
def resolve (s : Store) : TypeRef → Option TypeDef
  | .named fullName => s.get? fullName
  | .generic _ _ => none

/-- Adds definitions in order. -/
def insertAll : List TypeDef → Store → Store
  | [], s => s
  | d :: rest, s => insertAll rest (s.insert d).2

/-- The store of a list of definitions; `MetadataStore.from_iter`. -/
def ofList (ds : List TypeDef) : Store := insertAll ds empty

/-- Adds definitions in order, and tells of each that takes the place of another; the loop of
`MetadataStore.parse`. -/
def loadAll : List TypeDef → Store → List LogEvent × Store
  | [], s => ([], s)
  | d :: rest, s =>
    let (replaced, s) := s.insert d
    let (events, s) := loadAll rest s
    match replaced with
    | some old => (.duplicateType old.fullName :: events, s)
    | none => (events, s)

/-- Telling of what is replaced does not change the store. -/
theorem loadAll_snd (ds : List TypeDef) (s : Store) : (loadAll ds s).2 = insertAll ds s := by
  induction ds generalizing s with
  | nil => rfl
  | cons d rest ih =>
    rw [insertAll, ← ih]
    simp only [loadAll]
    cases (s.insert d).1 <;> rfl

/-- Reads the definitions of a metadata document; `MetadataStore.parse`. -/
def parse (text : String) (place : Position) (supply : Supply) :
    Except Error (List LogEvent × Store) × Supply :=
  match DecodeM.runText TypeDef.decodeDocument text supply with
  | (.ok ds, supply) => (.ok (loadAll ds empty), supply)
  | (.error e, supply) =>
    (.error (.metadata ("Failed to parse metadata JSON: " ++ e.messageAt place)), supply)

/-- Reads the metadata document in the file at a path, given what reading it yields;
`MetadataStore.load`. -/
def load (path : String) (contents : FileContents) (place : Position) (supply : Supply) :
    Except Error (List LogEvent × Store) × Supply :=
  match contents.text with
  | .ok text => parse text place supply
  | .error reason =>
    (.error (.metadata ("Failed to read metadata file " ++ path ++ ": " ++ reason)), supply)

end Store

end Cil
