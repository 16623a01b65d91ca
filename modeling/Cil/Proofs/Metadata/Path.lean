import Cil.Metadata.Implements
import Mathlib.Logic.Relation

/-!
# Paths to an interface

A type takes interfaces from others: a generic parameter from its constraints, a named type from
its base type. `Store.Reaches` says that a path of such steps leads to a type whose definition
states the interface. A walk need not take all of them, as it stops at the first success;
`Store.Ends` says that those it takes come to an end. Main statements: `Store.reaches_named_iff`
and `Store.reaches_generic_iff`, by which a path is found or excluded step by step.
-/

namespace Cil

/-- What holds of named types, and of generic parameters whose constraints it holds of, holds of
all references. -/
@[elab_as_elim]
theorem TypeRef.induction {motive : TypeRef → Prop} (named : ∀ fullName, motive (.named fullName))
    (generic : ∀ name constraints, (∀ c ∈ constraints, motive c) →
      motive (.generic name constraints)) : ∀ t, motive t
  | .named fullName => named fullName
  | .generic name constraints =>
    generic name constraints fun c _ ↦ TypeRef.induction named generic c

namespace Store

variable {s : Store} {interface : String}

/-- A step from a type to one that it takes interfaces from. -/
inductive Step (s : Store) : TypeRef → TypeRef → Prop
  /-- From a generic parameter to any one of its constraints. -/
  | constraint {name : String} {constraints : List TypeRef} {c : TypeRef}
      (hc : c ∈ constraints) : Step s (.generic name constraints) c
  /-- From a named type that the store has to its base type. -/
  | base {fullName : String} {d : TypeDef} {b : TypeRef}
      (hd : s.resolve (.named fullName) = some d) (hb : d.base = some b) :
      Step s (.named fullName) b

/-- The type is a named one that the store has, with the interface among those of its
definition. -/
def Declares (s : Store) (interface : String) (t : TypeRef) : Prop :=
  ∃ fullName d, t = .named fullName ∧ s.resolve t = some d ∧
    ∃ i ∈ d.interfaces, i.fullName = interface

/-- A finite path leads from the type to one that states the interface. -/
def Reaches (s : Store) (interface : String) (t : TypeRef) : Prop :=
  ∃ u, Relation.ReflTransGen s.Step t u ∧ s.Declares interface u

/-- A definition has the interface among its own exactly when a search finds it there. -/
theorem declares_named_iff {fullName : String} :
    s.Declares interface (.named fullName) ↔
      ∃ d, s.get? fullName = some d ∧ states interface d = true := by
  simp [Declares, states, resolve]

/-- A generic parameter states no interface itself. -/
theorem not_declares_generic {name : String} {constraints : List TypeRef} :
    ¬ s.Declares interface (.generic name constraints) := by
  rintro ⟨_, _, ht, -⟩
  cases ht

private theorem reaches_iff {t : TypeRef} :
    s.Reaches interface t ↔ s.Declares interface t ∨ ∃ u, s.Step t u ∧ s.Reaches interface u := by
  constructor
  · rintro ⟨v, hv, hd⟩
    rcases Relation.ReflTransGen.cases_head hv with rfl | ⟨u, hu, huv⟩
    · exact .inl hd
    · exact .inr ⟨u, hu, v, huv, hd⟩
  · rintro (hd | ⟨u, hu, v, huv, hd⟩)
    · exact ⟨t, .refl, hd⟩
    · exact ⟨v, .head hu huv, hd⟩

/-- A path from a named type needs its definition, which states the interface or has a base type
that the path goes on from. -/
theorem reaches_named_iff {fullName : String} :
    s.Reaches interface (.named fullName) ↔
      ∃ d, s.get? fullName = some d ∧
        (states interface d = true ∨ ∃ b, d.base = some b ∧ s.Reaches interface b) := by
  rw [reaches_iff, declares_named_iff]
  constructor
  · rintro (⟨d, hd, hi⟩ | ⟨b, hs, hr⟩)
    · exact ⟨d, hd, .inl hi⟩
    · cases hs with
      | base hd hb => exact ⟨_, hd, .inr ⟨b, hb, hr⟩⟩
  · rintro ⟨d, hd, hi | ⟨b, hb, hr⟩⟩
    · exact .inl ⟨d, hd, hi⟩
    · exact .inr ⟨b, .base hd hb, hr⟩

/-- A path from a generic parameter goes on from one of its constraints. -/
theorem reaches_generic_iff {name : String} {constraints : List TypeRef} :
    s.Reaches interface (.generic name constraints) ↔
      ∃ c ∈ constraints, s.Reaches interface c := by
  rw [reaches_iff]
  constructor
  · rintro (hd | ⟨c, hs, hr⟩)
    · exact absurd hd not_declares_generic
    · cases hs with
      | constraint hc => exact ⟨c, hc, hr⟩
  · rintro ⟨c, hc, hr⟩
    exact .inr ⟨c, .constraint hc, hr⟩

/-- A step that a walk takes: to a constraint if those before it do not reach the interface, and to
a base type if the definition does not state the interface itself. -/
inductive Visits (s : Store) (interface : String) : TypeRef → TypeRef → Prop
  | constraint {name : String} {constraints front back : List TypeRef} {c : TypeRef}
      (hc : constraints = front ++ c :: back) (hf : ∀ u ∈ front, ¬ s.Reaches interface u) :
      Visits s interface (.generic name constraints) c
  | base {fullName : String} {d : TypeDef} {b : TypeRef}
      (hd : s.resolve (.named fullName) = some d) (hi : ¬ s.Declares interface (.named fullName))
      (hb : d.base = some b) : Visits s interface (.named fullName) b

/-- The walk from a type ends: there is no endless sequence of steps that it takes. -/
def Ends (s : Store) (interface : String) (t : TypeRef) : Prop :=
  Acc (fun u t ↦ s.Visits interface t u) t

/-- A walk takes only steps to types that interfaces are taken from. -/
theorem Visits.step {t u : TypeRef} (h : s.Visits interface t u) : s.Step t u := by
  cases h with
  | constraint hc _ => exact .constraint (hc ▸ by simp)
  | base hd _ hb => exact .base hd hb

/-- A base type is visited from a name of the store. -/
theorem Visits.mem_names {fullName : String} {b : TypeRef}
    (h : s.Visits interface (.named fullName) b) : fullName ∈ s.defs.names := by
  cases h with
  | base hd _ _ => exact Named.mem_names_iff.mpr ⟨_, hd⟩

/-- Where all sequences of steps from a type are finite, the walk for any interface ends. -/
theorem ends_of_acc {t : TypeRef} (h : Acc (fun u t ↦ s.Step t u) t) : s.Ends interface t :=
  Subrelation.accessible Visits.step h

/-- What a walk that ends comes to is where a walk ends too. -/
theorem Ends.of_reflTransGen {t u : TypeRef} (h : s.Ends interface t)
    (hu : Relation.ReflTransGen (s.Visits interface) t u) : s.Ends interface u := by
  induction hu with
  | refl => exact h
  | tail _ hv ih => exact ih.inv hv

/-- A walk that ends does not come back to where it begins. -/
theorem Ends.irrefl {t : TypeRef} (h : s.Ends interface t) :
    ¬ Relation.TransGen (s.Visits interface) t t := by
  induction h with
  | intro t _ ih =>
    intro hc
    obtain ⟨u, hu, hut⟩ := Relation.TransGen.head'_iff.mp hc
    exact ih u hu (.tail' hut hu)

end Store

end Cil
