import Cil.Metadata.Store

/-!
# Implemented interfaces

Whether a type implements an interface is found by a walk: a generic parameter asks its
constraints one after the other, a named type is looked up, its own interfaces are searched, and
its base type is asked next. The walk stops at the first success. What it looked up is part of
its result. Where base types form a cycle, a walk can be endless; any other takes no more steps to
a base type than there are definitions.
-/

namespace Cil

/-- A look-up of a type by full name on a walk. -/
structure Lookup where
  fullName : String
  isResolved : Bool
  deriving DecidableEq, Repr

/-- What a walk yields: its answer unless it is endless, and its look-ups in order. -/
structure Walk where
  answer : Option Bool
  lookups : List Lookup
  deriving DecidableEq, Repr

namespace Walk

/-- The walk that has found out nothing but its answer. -/
def ended (answer : Bool) : Walk := ⟨some answer, []⟩

/-- The walk that never ends. -/
def endless : Walk := ⟨none, []⟩

/-- A walk that goes on with another while it has no success. -/
def orElse (w : Walk) (next : Unit → Walk) : Walk :=
  match w.answer with
  | some false =>
    let v := next ()
    { answer := v.answer, lookups := w.lookups ++ v.lookups }
  | _ => w

/-- Log lines of a walk: one per look-up that found nothing. -/
def log (w : Walk) : List LogEvent :=
  (w.lookups.filter (!·.isResolved)).map fun l ↦ .unresolvedType l.fullName

/-- The names that were looked up. -/
def resolved (w : Walk) : List String := w.lookups.map (·.fullName)

end Walk

namespace Store

/-- The definition states the interface directly. -/
def states (interface : String) (d : TypeDef) : Bool :=
  d.interfaces.any fun i ↦ i.fullName == interface

/-- The walk from a named type, whose base type is walked by `next`. -/
def walkNamed (s : Store) (interface : String) (next : TypeRef → Walk) (fullName : String) :
    Walk :=
  match s.get? fullName with
  | none => ⟨some false, [⟨fullName, false⟩]⟩
  | some d =>
    if states interface d then ⟨some true, [⟨fullName, true⟩]⟩
    else match d.base with
      | none => ⟨some false, [⟨fullName, true⟩]⟩
      | some base => Walk.orElse ⟨some false, [⟨fullName, true⟩]⟩ fun _ ↦ next base

mutual

/-- The walk from a reference up to the next base types, which are walked by `next`. -/
def walkRef (s : Store) (interface : String) (next : TypeRef → Walk) : TypeRef → Walk
  | .named fullName => s.walkNamed interface next fullName
  | .generic _ constraints => walkAny s interface next constraints

/-- The walk that tries references one after the other. -/
def walkAny (s : Store) (interface : String) (next : TypeRef → Walk) : List TypeRef → Walk
  | [] => .ended false
  | t :: rest => (walkRef s interface next t).orElse fun _ ↦ walkAny s interface next rest

end

/-- The walk from a reference with at most so many steps to a base type on any path. -/
def walkWithin (s : Store) (interface : String) : Nat → TypeRef → Walk
  | 0 => s.walkRef interface fun _ ↦ .endless
  | n + 1 => s.walkRef interface (s.walkWithin interface n)

/-- The walk from a reference. -/
def walk (s : Store) (interface : String) (t : TypeRef) : Walk := s.walkWithin interface s.size t

/-- The walk that decides whether a type implements an interface; `implements_interface`. No type
implements nothing. -/
def implements (s : Store) (t : Option TypeRef) (interface : String) : Walk :=
  match t with
  | none => .ended false
  | some t => s.walk interface t

end Store

end Cil
