import Cil.Decode.Record
import Cil.Proofs.Decode.Outcome
import Mathlib.Data.List.Forall2

/-!
# What decoders come to

The values that a decoder can come to: of one that hands out identities, the values with any
supply. A value is followed back through the steps of a decoder by the same rules for both kinds,
`Decode.Inverts`.
-/

namespace Cil.Decode

/-- Decoders of this kind that can come to a value. -/
class Inverts (m : Type → Type) [Monad m] [MonadExceptOf DecodeError m] where
  /-- The decoder comes to the value, with some supply. -/
  Gives {α : Type} : m α → α → Prop
  /-- A value at hand is all that there is. -/
  pure {α : Type} {a b : α} : Gives (Pure.pure a) b → a = b
  /-- A second step comes to its value from a value of the first. -/
  bind {α β : Type} {x : m α} {f : α → m β} {b : β} :
    Gives (x >>= f) b → ∃ a, Gives x a ∧ Gives (f a) b
  /-- An error is no value. -/
  throw {α : Type} {e : DecodeError} {a : α} : ¬ Gives (MonadExcept.throw e) a

export Inverts (Gives)

instance : Inverts (Except DecodeError) where
  Gives x a := x = .ok a
  pure h := Except.ok.inj h
  bind := by
    intro α β x f b h
    cases x with
    | error e => cases h
    | ok a => exact ⟨a, rfl, h⟩
  throw h := by cases h

instance : Inverts DecodeM where
  Gives x a := ∃ s t, x.outcome s = (.ok a, t)
  pure := by
    rintro α a b ⟨s, t, h⟩
    exact Except.ok.inj (congrArg Prod.fst h)
  bind := by
    rintro α β x f b ⟨s, t, h⟩
    rw [DecodeM.outcome_bind] at h
    rcases hx : x.outcome s with ⟨e | a, u⟩
    · rw [hx] at h
      cases congrArg Prod.fst h
    · rw [hx] at h
      exact ⟨a, ⟨s, u, hx⟩, u, t, h⟩
  throw := by
    rintro α e a ⟨s, t, h⟩
    cases congrArg Prod.fst h

/-- A decoder that hands out nothing comes to what it comes to among those that do. -/
theorem eq_ok_of_gives_ofExcept {α : Type} {x : Except DecodeError α} {a : α}
    (h : Gives (DecodeM.ofExcept x) a) : x = .ok a := by
  obtain ⟨s, t, h⟩ := h
  rw [DecodeM.outcome_ofExcept] at h
  exact congrArg Prod.fst h

variable {m : Type → Type} [Monad m] [MonadExceptOf DecodeError m] [Inverts m] {α β : Type}

/-- A changed value comes from the value that is changed. -/
theorem exists_of_gives_map [LawfulMonad m] {x : m α} {f : α → β} {b : β}
    (h : Gives (f <$> x) b) : ∃ a, Gives x a ∧ f a = b := by
  rw [map_eq_pure_bind] at h
  obtain ⟨a, ha, hb⟩ := Inverts.bind h
  exact ⟨a, ha, Inverts.pure hb⟩

/-- A list comes from its items one by one. -/
theorem forall₂_of_gives_mapM [LawfulMonad m] {f : α → m β} {l : List α} {bs : List β}
    (h : Gives (l.mapM f) bs) : List.Forall₂ (fun b a ↦ Gives (f a) b) bs l := by
  induction l generalizing bs with
  | nil =>
    obtain rfl : [] = bs := Inverts.pure h
    exact .nil
  | cons a rest ih =>
    rw [List.mapM_cons] at h
    obtain ⟨b, hb, h⟩ := Inverts.bind h
    obtain ⟨bs, hbs, h⟩ := Inverts.bind h
    obtain rfl := Inverts.pure h
    exact .cons hb (ih hbs)

/-- What is in a decoded list comes from an item. -/
theorem exists_of_gives_list [LawfulMonad m] {decode : Json → m α} {l : List α} {v : Json}
    (h : Gives (list decode v) l) : ∀ a ∈ l, ∃ u, Gives (decode u) a := by
  cases v with
  | array items =>
    intro a ha
    obtain ⟨index, hindex, rfl⟩ := List.mem_iff_getElem.mp ha
    have hitems := forall₂_of_gives_mapM h
    exact ⟨_, hitems.get hindex (hitems.length_eq ▸ hindex)⟩
  | _ => exact absurd h Inverts.throw

/-- A value that there may be and is comes from what it is written as. -/
theorem exists_of_gives_optional [LawfulMonad m] {decode : Json → m α} {o : Option α} {v : Json}
    (h : Gives (optional decode v) o) : ∀ a ∈ o, ∃ u, Gives (decode u) a := by
  rintro a rfl
  cases v with
  | null => cases Inverts.pure h
  | _ =>
    obtain ⟨b, hb, hsome⟩ := exists_of_gives_map h
    obtain rfl := Option.some.inj hsome
    exact ⟨_, hb⟩

/-- What a document comes to is what its value comes to, and it is well formed. -/
theorem gives_of_gives_document {decode : Json → m α} {d : Json.Document} {a : α}
    (h : Gives (document decode d) a) : d.isWellFormed ∧ Gives (decode d.root) a := by
  obtain ⟨b, hb, h⟩ := Inverts.bind h
  by_cases hd : d.isWellFormed
  · rw [if_pos hd] at h
    obtain rfl := Inverts.pure h
    exact ⟨hd, hb⟩
  · rw [if_neg hd] at h
    exact absurd h Inverts.throw

/-! ### Records -/

section Record

variable {ρ : Type} {P : ρ → Prop} {record : Record m ρ}

/-- Reading the field keeps a property of records. -/
def Field.Keeps (P : ρ → Prop) (f : Field m ρ) : Prop :=
  ∀ v update, Gives (f.read v) update → ∀ r, P r → P (update r)

/-- Whether or not it is required, a field keeps what putting its values into their place keeps. -/
theorem Field.keeps_of_put [LawfulMonad m] {decode : Json → m α} {put : α → ρ → ρ} {name : String}
    {isRequired : Bool} (h : ∀ v a, Gives (decode v) a → ∀ r, P r → P (put a r)) :
    Field.Keeps P ⟨name, fun v ↦ put <$> decode v, isRequired⟩ := by
  intro v update hupdate
  obtain ⟨a, ha, rfl⟩ := exists_of_gives_map hupdate
  exact h v a ha

private theorem keeps_ofMembers (h : ∀ f ∈ record.fields, f.Keeps P) {given : List String}
    {draft r : ρ} {members : List (String × Json)} (hdraft : P draft)
    (hr : Gives (record.ofMembers given draft members) r) : P r := by
  induction members generalizing given draft with
  | nil =>
    rw [Record.ofMembers] at hr
    split at hr
    · exact absurd hr Inverts.throw
    · exact Inverts.pure hr ▸ hdraft
  | cons member rest ih =>
    obtain ⟨name, v⟩ := member
    rw [Record.ofMembers] at hr
    split at hr
    next =>
      split at hr
      · exact ih hdraft hr
      · exact absurd hr Inverts.throw
    next f hf =>
      split at hr
      · exact absurd hr Inverts.throw
      · obtain ⟨update, hupdate, hr⟩ := Inverts.bind hr
        have hmem : f ∈ record.fields := List.mem_of_find?_eq_some hf
        exact ih (h f hmem v update hupdate draft hdraft) hr

private theorem keeps_ofItems {fields : List (Field m ρ)} (h : ∀ f ∈ fields, f.Keeps P)
    {index : Nat} {draft r : ρ} {items : List Json} (hdraft : P draft)
    (hr : Gives (record.ofItems index draft fields items) r) : P r := by
  induction fields generalizing index draft items with
  | nil =>
    cases items with
    | nil => exact Inverts.pure hr ▸ hdraft
    | cons v rest => exact absurd hr Inverts.throw
  | cons f fields ih =>
    obtain ⟨hf, hrest⟩ := List.forall_mem_cons.mp h
    cases items with
    | nil =>
      rw [Record.ofItems] at hr
      split at hr
      · exact absurd hr Inverts.throw
      · exact ih hrest hdraft hr
    | cons v rest =>
      obtain ⟨update, hupdate, hr⟩ := Inverts.bind hr
      exact ih hrest (hf v update hupdate draft hdraft) hr

/-- A torn object comes to no record. -/
theorem Record.not_gives_torn {members : List (String × Json)} {rest : Json.Flaw} {r : ρ} :
    ¬ Gives (record.decode (.torn members rest)) r := by
  intro hr
  obtain ⟨_, -, hthrow⟩ := Inverts.bind hr
  exact Inverts.throw hthrow

/-- What holds of the blank record and is kept by all fields holds of every decoded record. -/
theorem Record.of_gives (h : ∀ f ∈ record.fields, f.Keeps P) (hblank : P record.blank) {v : Json}
    {r : ρ} (hr : Gives (record.decode v) r) : P r := by
  cases v with
  | object members => exact keeps_ofMembers h hblank hr
  | torn members rest => exact absurd hr not_gives_torn
  | array items => exact keeps_ofItems h hblank hr
  | _ => exact absurd hr Inverts.throw

end Record

end Cil.Decode
