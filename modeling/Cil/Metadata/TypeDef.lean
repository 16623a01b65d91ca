import Cil.Code.Basic
import Cil.Metadata.TypeRef
import Cil.Options.Basic

/-!
# Type definitions

What is known of a type and its members, and the questions a weaving pass asks to choose its
targets. Attributes and interfaces are recognised by their simple names.
-/

namespace Cil

/-- An attribute applied to a type or a method; `CustomAttribute`. -/
structure Attribute where
  type : TypeRef
  deriving DecidableEq

/-- The body of a method. -/
structure MethodBody where
  code : Code
  deriving DecidableEq

/-- A method. Abstract and external ones have no body. -/
structure MethodDef where
  name : String
  isAbstract : Bool
  body : Option MethodBody
  attributes : List Attribute
  deriving DecidableEq

/-- A property with its accessors. -/
structure PropertyDef where
  name : String
  getter : Option MethodDef
  setter : Option MethodDef
  deriving DecidableEq

/-- A type. -/
structure TypeDef where
  fullName : String
  base : Option TypeRef
  interfaces : List TypeRef
  methods : List MethodDef
  properties : List PropertyDef
  attributes : List Attribute
  deriving DecidableEq

/-- One of these attributes has the simple name; `CustomAttributeProvider.has_attribute`. -/
def Attribute.anyNamed (name : String) (attributes : List Attribute) : Bool :=
  attributes.any fun a ↦ a.type.name == name

namespace MethodDef

/-- A method with an empty body; `MethodDef.new`. -/
def concrete (name : String) : MethodDef :=
  { name, isAbstract := false, body := some ⟨.empty⟩, attributes := [] }

/-- A method without a body; `MethodDef.abstract_method`. -/
def abstract (name : String) : MethodDef :=
  { name, isAbstract := true, body := none, attributes := [] }

/-- An attribute of this simple name is applied to the method. -/
def hasAttribute (m : MethodDef) (name : String) : Bool := Attribute.anyNamed name m.attributes

/-- The method is the entry of an asynchronous state machine;
`CustomAttributeProvider.is_async_state_machine`. -/
def isAsync (m : MethodDef) (options : Options) : Bool := m.hasAttribute options.asyncAttribute

end MethodDef

namespace PropertyDef

/-- No accessor of the property is abstract. -/
def isConcrete (p : PropertyDef) : Bool :=
  p.getter.all (fun m ↦ !m.isAbstract) && p.setter.all fun m ↦ !m.isAbstract

end PropertyDef

namespace TypeDef

/-- A type about which only its name is known; `TypeDef.new`. -/
def ofName (fullName : String) : TypeDef :=
  { fullName, base := none, interfaces := [], methods := [], properties := [], attributes := [] }

/-- The name without namespace and declaring type; `TypeDef.name`. -/
def name (d : TypeDef) : String := TypeRef.simpleName d.fullName

/-- An attribute of this simple name is applied to the type. -/
def hasAttribute (d : TypeDef) (name : String) : Bool := Attribute.anyNamed name d.attributes

/-- The type carries the mark of an asynchronous method;
`CustomAttributeProvider.is_async_state_machine`. -/
def isAsync (d : TypeDef) (options : Options) : Bool := d.hasAttribute options.asyncAttribute

/-- The type states directly that it is an asynchronous state machine;
`TypeDef.is_iasync_state_machine`. -/
def isAsyncStateMachine (d : TypeDef) (options : Options) : Bool :=
  d.interfaces.any fun i ↦ i.name == options.asyncInterface

/-- The methods with code to weave into; `TypeDef.methods_with_body`. -/
def methodsWithBody (d : TypeDef) : List MethodDef := d.methods.filter (·.body.isSome)

/-- The properties without an abstract accessor; `TypeDef.concrete_properties`. -/
def concreteProperties (d : TypeDef) : List PropertyDef := d.properties.filter (·.isConcrete)

end TypeDef

end Cil
