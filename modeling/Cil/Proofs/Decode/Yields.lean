import Cil.Proofs.Decode.Outcome

/-!
# Decoders that succeed

What it means that a decoder comes to a value with a property: a decoder that hands out identities
does so with any supply. Both kinds of decoders keep to the same rules, `Decode.Succeeds`, so that
what is written with either is looked at once.
-/

namespace Cil.Decode

/-- Decoders of this kind that succeed with a value of a property. -/
class Succeeds (m : Type → Type) [Monad m] [MonadExceptOf DecodeError m] where
  /-- The decoder succeeds, and its value has the property. -/
  Yields {α : Type} : m α → (α → Prop) → Prop
  /-- A value at hand has the properties that it has. -/
  pure {α : Type} {a : α} {P : α → Prop} : P a → Yields (Pure.pure a) P
  /-- A second step may rely on the property of the first value. -/
  bind {α β : Type} {x : m α} {f : α → m β} {P : α → Prop} {Q : β → Prop} :
    Yields x P → (∀ a, P a → Yields (f a) Q) → Yields (x >>= f) Q

export Succeeds (Yields)

instance : Succeeds (Except DecodeError) where
  Yields x P := ∃ a, x = .ok a ∧ P a
  pure h := ⟨_, rfl, h⟩
  bind := by
    rintro α β x f P Q ⟨a, rfl, ha⟩ hf
    exact hf a ha

instance : Succeeds DecodeM where
  Yields x P := ∀ s, ∃ a t, x.outcome s = (.ok a, t) ∧ P a
  pure h := fun s ↦ ⟨_, s, rfl, h⟩
  bind := by
    intro α β x f P Q hx hf s
    obtain ⟨a, t, hs, ha⟩ := hx s
    obtain ⟨b, u, ht, hb⟩ := hf a ha t
    refine ⟨b, u, ?_, hb⟩
    rw [DecodeM.outcome_bind, hs]
    exact ht

/-- A decoder that hands out nothing succeeds with any supply. -/
theorem yields_ofExcept {α : Type} {x : Except DecodeError α} {P : α → Prop} (h : Yields x P) :
    Yields (DecodeM.ofExcept x) P := by
  obtain ⟨a, rfl, ha⟩ := h
  exact Succeeds.pure ha

/-- Handing out an identity succeeds. -/
theorem yields_fresh : Yields DecodeM.fresh fun _ ↦ True :=
  fun s ↦ ⟨s.take.1, s.take.2, rfl, trivial⟩

variable {m : Type → Type} [Monad m] [MonadExceptOf DecodeError m] [Succeeds m] {α β : Type}
  {P : α → Prop}

/-- A value that is changed has the properties of the changed value. -/
theorem yields_map [LawfulMonad m] {x : m α} {f : α → β} {Q : β → Prop} (hx : Yields x P)
    (hf : ∀ a, P a → Q (f a)) : Yields (f <$> x) Q := by
  rw [map_eq_pure_bind]
  exact Succeeds.bind hx fun a ha ↦ Succeeds.pure (hf a ha)

/-- A well-formed document succeeds when its value does. -/
theorem yields_document {decode : Json → m α} {d : Json.Document} (hd : d.isWellFormed)
    (h : Yields (decode d.root) P) : Yields (document decode d) P := by
  refine Succeeds.bind h fun a ha ↦ ?_
  rw [if_pos hd]
  exact Succeeds.pure ha

end Cil.Decode
