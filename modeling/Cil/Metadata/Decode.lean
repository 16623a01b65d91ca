import Cil.Code.Decode
import Cil.Metadata.TypeDef

/-!
# Written type definitions

The record forms of types, their members and attributes, and of a whole metadata document.
-/

namespace Cil

namespace TypeRef

/-- Decodes a reference inside a definition. -/
def decodeM (v : Json) : DecodeM TypeRef := .ofExcept (decode v)

end TypeRef

namespace Attribute

/-- The record form of an attribute. -/
def record : Decode.Record DecodeM Attribute where
  title := "struct CustomAttribute"
  blank := ⟨default⟩
  fields := [.required "attribute_type" TypeRef.decodeM fun t _ ↦ ⟨t⟩]

/-- Decodes an attribute. -/
def decode : Json → DecodeM Attribute := record.decode

end Attribute

namespace MethodBody

/-- The record form of a method body. -/
def record : Decode.Record DecodeM MethodBody where
  title := "struct MethodBody"
  blank := ⟨.empty⟩
  fields := [.defaulted "instructions" Code.decode fun c _ ↦ ⟨c⟩]

/-- Decodes a method body. -/
def decode : Json → DecodeM MethodBody := record.decode

end MethodBody

namespace MethodDef

/-- The record form of a method. -/
def record : Decode.Record DecodeM MethodDef where
  title := "struct MethodDef"
  blank := { name := "", isAbstract := false, body := none, attributes := [] }
  fields := [
    .required "name" (.ofExcept ∘ Decode.string) fun s m ↦ { m with name := s },
    .defaulted "is_abstract" (.ofExcept ∘ Decode.bool) fun b m ↦ { m with isAbstract := b },
    .defaulted "body" (Decode.optional MethodBody.decode) fun b m ↦ { m with body := b },
    .defaulted "custom_attributes" (Decode.list Attribute.decode)
      fun l m ↦ { m with attributes := l }]

/-- Decodes a method. -/
def decode : Json → DecodeM MethodDef := record.decode

end MethodDef

namespace PropertyDef

/-- The record form of a property. -/
def record : Decode.Record DecodeM PropertyDef where
  title := "struct PropertyDef"
  blank := { name := "", getter := none, setter := none }
  fields := [
    .required "name" (.ofExcept ∘ Decode.string) fun s p ↦ { p with name := s },
    .defaulted "get_method" (Decode.optional MethodDef.decode) fun m p ↦ { p with getter := m },
    .defaulted "set_method" (Decode.optional MethodDef.decode) fun m p ↦ { p with setter := m }]

/-- Decodes a property. -/
def decode : Json → DecodeM PropertyDef := record.decode

end PropertyDef

namespace TypeDef

/-- The record form of a type. -/
def record : Decode.Record DecodeM TypeDef where
  title := "struct TypeDef"
  blank := .ofName ""
  fields := [
    .required "full_name" (.ofExcept ∘ Decode.string) fun s d ↦ { d with fullName := s },
    .defaulted "base_type" (Decode.optional TypeRef.decodeM) fun t d ↦ { d with base := t },
    .defaulted "interfaces" (Decode.list TypeRef.decodeM) fun l d ↦ { d with interfaces := l },
    .defaulted "methods" (Decode.list MethodDef.decode) fun l d ↦ { d with methods := l },
    .defaulted "properties" (Decode.list PropertyDef.decode) fun l d ↦ { d with properties := l },
    .defaulted "custom_attributes" (Decode.list Attribute.decode)
      fun l d ↦ { d with attributes := l }]

/-- Decodes a type. -/
def decode : Json → DecodeM TypeDef := record.decode

/-- The record form of a metadata document, which holds the types; `MetadataDocument`. -/
def documentRecord : Decode.Record DecodeM (List TypeDef) where
  title := "struct MetadataDocument"
  blank := []
  fields := [.defaulted "types" (Decode.list TypeDef.decode) fun l _ ↦ l]

/-- Decodes a metadata document. -/
def decodeDocument : Json → DecodeM (List TypeDef) := documentRecord.decode

end TypeDef

end Cil
