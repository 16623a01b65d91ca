import Cil.Instr.Decode

/-!
# Outcomes of decoders

A decoder is given a supply of identities, comes to a value or an error, and leaves a supply. What
it comes to follows from its parts, one after the other: `DecodeM.outcome_bind`.
-/

namespace Cil.DecodeM

variable {α β : Type}

/-- What a decoder comes to, and the supply that it leaves. -/
def outcome (x : DecodeM α) (s : Supply) : Except DecodeError α × Supply := x.run.run s

/-- A value at hand leaves the supply alone. -/
@[simp] theorem outcome_pure (a : α) (s : Supply) :
    (pure a : DecodeM α).outcome s = (.ok a, s) := rfl

/-- An error leaves the supply alone. -/
@[simp] theorem outcome_throw (e : DecodeError) (s : Supply) :
    (throw e : DecodeM α).outcome s = (.error e, s) := rfl

/-- What hands out nothing leaves the supply alone. -/
@[simp] theorem outcome_ofExcept (x : Except DecodeError α) (s : Supply) :
    (ofExcept x).outcome s = (x, s) := by
  cases x <;> rfl

/-- The next identity is taken from the supply. -/
@[simp] theorem outcome_fresh (s : Supply) : fresh.outcome s = (.ok s.take.1, s.take.2) := rfl

/-- A second step is given the value of the first and the supply it leaves; an error is final. -/
theorem outcome_bind (x : DecodeM α) (f : α → DecodeM β) (s : Supply) :
    (x >>= f).outcome s = match x.outcome s with
      | (.ok a, t) => (f a).outcome t
      | (.error e, t) => (.error e, t) := by
  simp only [outcome, ExceptT.run_bind, StateT.run_bind]
  rcases x.run.run s with ⟨_ | _, t⟩ <;> rfl

/-- A changed value leaves the supply that the value leaves. -/
theorem outcome_map (f : α → β) (x : DecodeM α) (s : Supply) :
    (f <$> x).outcome s = ((x.outcome s).1.map f, (x.outcome s).2) := by
  rw [map_eq_pure_bind, outcome_bind]
  rcases x.outcome s with ⟨_ | _, t⟩ <;> rfl

/-- Decoding a text given a supply is the outcome of its decoder there. -/
theorem outcome_text (decode : Json → DecodeM α) (text : String) (s : Supply) :
    (Decode.text decode text).outcome s = runText decode text s := rfl

end Cil.DecodeM
