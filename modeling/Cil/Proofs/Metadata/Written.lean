import Cil.Metadata.Decode
import Cil.Proofs.Instr.Written
import Cil.Proofs.Metadata.Grammar

/-!
# Written type definitions are read

The written forms of types, their members and attributes, and of a metadata document, each by the
list of its entries, and that the decoders read them all.
-/

namespace Cil

open Decode (Entry Writing)

namespace Attribute

/-- What is written of an attribute. -/
def entries : List (Entry Attribute) := [.required "attribute_type" TypeRef.writing (·.type)]

/-- Attributes. -/
def writing : Writing Attribute := .record entries id

/-- The field of an attribute reads what is written of it. -/
theorem implements_record : record.Implements entries id where
  fields := by
    refine .cons ?type .nil
    exact Entry.readBy_of_put (Decode.reads_ofExcept TypeRef.reads) (fun _ ↦ rfl)
      (fun _ _ ↦ rfl) (by simp [entries])
  nodup := by decide
  blank := by simp [entries]
  ext a b h := congrArg Attribute.mk (h _ (.head _))

end Attribute

namespace MethodBody

/-- The body without identities. -/
def anonymous (b : MethodBody) : MethodBody := ⟨b.code.anonymous⟩

/-- What is written of a body. -/
def entries : List (Entry MethodBody) := [.defaulted "instructions" Code.writing (·.code) .empty]

/-- Method bodies. -/
def writing : Writing MethodBody := .record entries anonymous

/-- The field of a body reads what is written of it. -/
theorem implements_record : record.Implements entries anonymous where
  fields := by
    refine .cons ?code .nil
    exact Entry.readBy_of_put Code.reads nofun (fun _ _ ↦ rfl) (by simp [entries])
  nodup := by decide
  blank := by simp [entries, record]
  ext a b h := congrArg MethodBody.mk (h _ (.head _))

end MethodBody

namespace MethodDef

/-- The method without identities. -/
def anonymous (m : MethodDef) : MethodDef := { m with body := m.body.map MethodBody.anonymous }

/-- What is written of a method. -/
def entries : List (Entry MethodDef) := [
  .required "name" .string (·.name),
  .defaulted "is_abstract" .bool (·.isAbstract) false,
  .defaulted "body" MethodBody.writing.optional (·.body) none,
  .defaulted "custom_attributes" Attribute.writing.list (·.attributes) []]

/-- Methods. -/
def writing : Writing MethodDef := .record entries anonymous

/-- The fields of a method read what is written of it. -/
theorem implements_record : record.Implements entries anonymous where
  fields := by
    refine .cons ?name (.cons ?isAbstract (.cons ?body (.cons ?attributes .nil)))
    case name =>
      exact Entry.readBy_of_put (Decode.reads_ofExcept Decode.reads_string) (fun _ ↦ rfl)
        (fun _ _ ↦ rfl) (by simp [entries])
    case isAbstract =>
      exact Entry.readBy_of_put (Decode.reads_ofExcept Decode.reads_bool) nofun
        (fun _ _ ↦ rfl) (by simp [entries])
    case body =>
      have hbody := Decode.reads_optional MethodBody.implements_record.reads
        fun _ h ↦ h.ne_null rfl
      exact Entry.readBy_of_put hbody nofun (fun _ _ ↦ rfl) (by simp [entries])
    case attributes =>
      exact Entry.readBy_of_put (Decode.reads_list Attribute.implements_record.reads) nofun
        (fun _ _ ↦ rfl) (by simp [entries])
  nodup := by decide
  blank := by simp [entries, record]
  ext a b h := by
    simp only [entries, List.forall_mem_cons] at h
    obtain ⟨hname, habstract, hbody, hattributes, -⟩ := h
    have hall (l : List Attribute) : Attribute.writing.list.plain l = l :=
      Writing.plain_list (fun _ ↦ rfl) l
    have hattributes : a.attributes = b.attributes :=
      (hall _).symm.trans (hattributes.trans (hall _))
    rw [anonymous, anonymous, MethodDef.mk.injEq]
    exact ⟨hname, habstract, hbody, hattributes⟩

end MethodDef

namespace PropertyDef

/-- The property without identities. -/
def anonymous (p : PropertyDef) : PropertyDef :=
  { p with
    getter := p.getter.map MethodDef.anonymous
    setter := p.setter.map MethodDef.anonymous }

/-- What is written of a property. -/
def entries : List (Entry PropertyDef) := [
  .required "name" .string (·.name),
  .defaulted "get_method" MethodDef.writing.optional (·.getter) none,
  .defaulted "set_method" MethodDef.writing.optional (·.setter) none]

/-- Properties. -/
def writing : Writing PropertyDef := .record entries anonymous

/-- The fields of a property read what is written of it. -/
theorem implements_record : record.Implements entries anonymous where
  fields := by
    have haccessor := Decode.reads_optional MethodDef.implements_record.reads
      fun _ h ↦ h.ne_null rfl
    refine .cons ?name (.cons ?getter (.cons ?setter .nil))
    case name =>
      exact Entry.readBy_of_put (Decode.reads_ofExcept Decode.reads_string) (fun _ ↦ rfl)
        (fun _ _ ↦ rfl) (by simp [entries])
    case getter =>
      exact Entry.readBy_of_put haccessor nofun (fun _ _ ↦ rfl) (by simp [entries])
    case setter =>
      exact Entry.readBy_of_put haccessor nofun (fun _ _ ↦ rfl) (by simp [entries])
  nodup := by decide
  blank := by simp [entries, record]
  ext a b h := by
    simp only [entries, List.forall_mem_cons] at h
    obtain ⟨hname, hgetter, hsetter, -⟩ := h
    rw [anonymous, anonymous, PropertyDef.mk.injEq]
    exact ⟨hname, hgetter, hsetter⟩

end PropertyDef

namespace TypeDef

/-- The type without identities. -/
def anonymous (d : TypeDef) : TypeDef :=
  { d with
    methods := d.methods.map MethodDef.anonymous
    properties := d.properties.map PropertyDef.anonymous }

/-- What is written of a type. -/
def entries : List (Entry TypeDef) := [
  .required "full_name" .string (·.fullName),
  .defaulted "base_type" TypeRef.writing.optional (·.base) none,
  .defaulted "interfaces" TypeRef.writing.list (·.interfaces) [],
  .defaulted "methods" MethodDef.writing.list (·.methods) [],
  .defaulted "properties" PropertyDef.writing.list (·.properties) [],
  .defaulted "custom_attributes" Attribute.writing.list (·.attributes) []]

/-- Types. -/
def writing : Writing TypeDef := .record entries anonymous

/-- The fields of a type read what is written of it. -/
theorem implements_record : record.Implements entries anonymous where
  fields := by
    have href := Decode.reads_ofExcept TypeRef.reads
    refine .cons ?fullName (.cons ?base (.cons ?interfaces (.cons ?methods (.cons ?properties
      (.cons ?attributes .nil)))))
    case fullName =>
      exact Entry.readBy_of_put (Decode.reads_ofExcept Decode.reads_string) (fun _ ↦ rfl)
        (fun _ _ ↦ rfl) (by simp [entries])
    case base =>
      exact Entry.readBy_of_put (Decode.reads_optional href TypeRef.not_writes_null) nofun
        (fun _ _ ↦ rfl) (by simp [entries])
    case interfaces =>
      exact Entry.readBy_of_put (Decode.reads_list href) nofun (fun _ _ ↦ rfl)
        (by simp [entries])
    case methods =>
      exact Entry.readBy_of_put (Decode.reads_list MethodDef.implements_record.reads) nofun
        (fun _ _ ↦ rfl) (by simp [entries])
    case properties =>
      exact Entry.readBy_of_put (Decode.reads_list PropertyDef.implements_record.reads) nofun
        (fun _ _ ↦ rfl) (by simp [entries])
    case attributes =>
      exact Entry.readBy_of_put (Decode.reads_list Attribute.implements_record.reads) nofun
        (fun _ _ ↦ rfl) (by simp [entries])
  nodup := by decide
  blank := by simp [entries, record, ofName]
  ext a b h := by
    simp only [entries, List.forall_mem_cons] at h
    obtain ⟨hname, hbase, hinterfaces, hmethods, hproperties, hattributes, -⟩ := h
    have hrefs (l : List TypeRef) : TypeRef.writing.list.plain l = l :=
      Writing.plain_list (fun _ ↦ rfl) l
    have hall (l : List Attribute) : Attribute.writing.list.plain l = l :=
      Writing.plain_list (fun _ ↦ rfl) l
    have href (o : Option TypeRef) : TypeRef.writing.optional.plain o = o :=
      Writing.plain_optional (fun _ ↦ rfl) o
    rw [anonymous, anonymous, TypeDef.mk.injEq]
    exact ⟨hname, (href _).symm.trans (hbase.trans (href _)),
      (hrefs _).symm.trans (hinterfaces.trans (hrefs _)), hmethods, hproperties,
      (hall _).symm.trans (hattributes.trans (hall _))⟩

/-- What is written of a document. -/
def documentEntries : List (Entry (List TypeDef)) := [
  .defaulted "types" writing.list (fun ds ↦ ds) []]

/-- Metadata documents. -/
def documentWriting : Writing (List TypeDef) := .record documentEntries (List.map anonymous)

/-- The field of a document reads what is written of it. -/
theorem implements_documentRecord :
    documentRecord.Implements documentEntries (List.map anonymous) where
  fields := by
    refine .cons ?types .nil
    exact Entry.readBy_of_put (Decode.reads_list implements_record.reads) nofun
      (fun _ _ ↦ rfl) (by simp [documentEntries])
  nodup := by decide
  blank := by simp [documentEntries, documentRecord]
  ext a b h := h _ (.head _)

end TypeDef

end Cil
