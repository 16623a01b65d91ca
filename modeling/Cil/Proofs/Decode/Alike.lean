import Cil.Code.Decode
import Cil.Proofs.Decode.Outcome

/-!
# Decoding twice

Whether decoding goes well does not depend on the supply, and neither does anything that a value
shows without its identities. `DecodeM.Alike` says that two decoders agree in this way with whatever
supplies; it is shown of the parts of a decoder in the order in which they are decoded.
-/

namespace Cil

namespace DecodeM

variable {α β γ δ : Type} {look : α → γ} {look' : β → δ}

/-- Whatever the supplies are, two decoders fail with the same error, or come to values that look
the same. -/
def Alike (look : α → γ) (x y : DecodeM α) : Prop :=
  ∀ s t, (x.outcome s).1.map look = (y.outcome t).1.map look

namespace Alike

/-- Values at hand that look the same. -/
theorem pure {a b : α} (h : look a = look b) : Alike look (Pure.pure a) (Pure.pure b) :=
  fun _ _ ↦ congrArg Except.ok h

private theorem throw (e : DecodeError) : Alike look (MonadExcept.throw e) (MonadExcept.throw e) :=
  fun _ _ ↦ rfl

/-- What hands out nothing comes to the same twice. -/
theorem ofExcept (x : Except DecodeError α) : Alike look (.ofExcept x) (.ofExcept x) := by
  intro s t
  rw [outcome_ofExcept, outcome_ofExcept]

/-- Identities look the same to who does not look at them. -/
theorem fresh : Alike (fun _ ↦ ()) DecodeM.fresh DecodeM.fresh := fun _ _ ↦ rfl

/-- Second steps may rely on values that look the same. -/
theorem bind {x y : DecodeM α} {f g : α → DecodeM β} (hxy : Alike look x y)
    (hfg : ∀ a b, look a = look b → Alike look' (f a) (g b)) :
    Alike look' (x >>= f) (y >>= g) := by
  intro s t
  have h := hxy s t
  rw [outcome_bind, outcome_bind]
  revert h
  rcases x.outcome s with ⟨e | a, s'⟩ <;> rcases y.outcome t with ⟨e' | b, t'⟩ <;> intro h
  · exact congrArg Except.error (Except.error.inj h)
  · cases h
  · cases h
  · exact hfg a b (Except.ok.inj h) s' t'

/-- Values that are changed look the same if those before do. -/
theorem map {x y : DecodeM α} {f g : α → β} (hxy : Alike look x y)
    (hfg : ∀ a b, look a = look b → look' (f a) = look' (g b)) :
    Alike look' (f <$> x) (g <$> y) := by
  rw [map_eq_pure_bind, map_eq_pure_bind]
  exact hxy.bind fun a b h ↦ pure (hfg a b h)

/-- Where one of them succeeds so does the other. -/
theorem exists_ok {x y : DecodeM α} (h : Alike look x y) {s : Supply} {a : α}
    (ha : (x.outcome s).1 = .ok a) (t : Supply) :
    ∃ b, (y.outcome t).1 = .ok b ∧ look b = look a := by
  have hst := h s t
  rw [ha] at hst
  cases hb : (y.outcome t).1 with
  | error e =>
    rw [hb] at hst
    cases hst
  | ok b =>
    rw [hb] at hst
    exact ⟨b, rfl, (Except.ok.inj hst).symm⟩

end Alike

end DecodeM

namespace Decode

open DecodeM (Alike)

variable {α γ ρ δ : Type} {look : α → γ} {decode : Json → DecodeM α}

/-- The items of a list look the same one by one. -/
theorem alike_list (h : ∀ v, Alike look (decode v) (decode v)) (v : Json) :
    Alike (List.map look) (list decode v) (list decode v) := by
  cases v with
  | array items =>
    rw [list]
    induction items with
    | nil => exact .pure rfl
    | cons v rest ih =>
      rw [List.mapM_cons]
      exact (h v).bind fun a b hab ↦ ih.bind fun l k hlk ↦ .pure (List.cons_eq_cons.mpr ⟨hab, hlk⟩)
  | _ => exact .throw _

/-- A list of what is the same both times is the same both times. -/
theorem alike_list_plain (h : ∀ v, Alike id (decode v) (decode v)) (v : Json) :
    Alike id (list decode v) (list decode v) := by
  simpa using alike_list h v

/-- A value that may be left out is left out of both or of none. -/
theorem alike_optional (h : ∀ v, Alike look (decode v) (decode v)) (v : Json) :
    Alike (Option.map look) (optional decode v) (optional decode v) := by
  cases v with
  | null => exact .pure rfl
  | _ => exact (h _).map fun a b hab ↦ congrArg some hab

/-- A value that may be left out and is the same both times otherwise is so in any case. -/
theorem alike_optional_plain (h : ∀ v, Alike id (decode v) (decode v)) (v : Json) :
    Alike id (optional decode v) (optional decode v) := by
  simpa using alike_optional h v

/-! ### Records -/

/-- Reading the field changes records that look the same into such ones. -/
def Field.Alike (look : ρ → δ) (f : Field DecodeM ρ) : Prop :=
  ∀ v r r', look r = look r' → DecodeM.Alike look ((· r) <$> f.read v) ((· r') <$> f.read v)

/-- Whether or not it is required, a field puts what looks the same into its place. -/
theorem Field.alike_of_put {look : ρ → δ} {held : α → γ} {put : α → ρ → ρ} {name : String}
    {isRequired : Bool} (h : ∀ v, DecodeM.Alike held (decode v) (decode v))
    (hput : ∀ a b r r', held a = held b → look r = look r' → look (put a r) = look (put b r')) :
    Field.Alike look ⟨name, fun v ↦ put <$> decode v, isRequired⟩ := by
  intro v r r' hr
  simp only [Functor.map_map]
  exact (h v).map fun a b hab ↦ hput a b r r' hab hr

/-- Whether or not it is required, a field may rely on a value that is the same both times. -/
theorem Field.alike_of_plain {look : ρ → δ} {put : α → ρ → ρ} {name : String} {isRequired : Bool}
    (h : ∀ v, DecodeM.Alike id (decode v) (decode v))
    (hput : ∀ a r r', look r = look r' → look (put a r) = look (put a r')) :
    Field.Alike look ⟨name, fun v ↦ put <$> decode v, isRequired⟩ :=
  alike_of_put h fun a b r r' hab hr ↦ (show a = b from hab) ▸ hput a r r' hr

namespace Record

variable {r : Record DecodeM ρ} {look : ρ → δ}

private theorem alike_ofMembers (h : ∀ f ∈ r.fields, f.Alike look) (given : List String)
    {draft draft' : ρ} (hdraft : look draft = look draft') (members : List (String × Json)) :
    Alike look (r.ofMembers given draft members) (r.ofMembers given draft' members) := by
  induction members generalizing given draft draft' with
  | nil =>
    rw [ofMembers, ofMembers]
    split
    · exact .throw _
    · exact .pure hdraft
  | cons member rest ih =>
    obtain ⟨name, v⟩ := member
    rw [ofMembers, ofMembers]
    split
    next =>
      split
      · exact ih given hdraft
      · exact .throw _
    next f hf =>
      split
      · exact .throw _
      · have hmem : f ∈ r.fields := List.mem_of_find?_eq_some hf
        have hread := (h f hmem v draft draft' hdraft).bind fun a b hab ↦ ih (name :: given) hab
        simpa only [bind_map_left] using hread

private theorem alike_ofItems {fields : List (Field DecodeM ρ)} (h : ∀ f ∈ fields, f.Alike look)
    (index : Nat) {draft draft' : ρ} (hdraft : look draft = look draft') (items : List Json) :
    Alike look (r.ofItems index draft fields items) (r.ofItems index draft' fields items) := by
  induction fields generalizing index draft draft' items with
  | nil =>
    cases items with
    | nil => exact .pure hdraft
    | cons v rest => exact .throw _
  | cons f fields ih =>
    have hrest : ∀ f ∈ fields, f.Alike look := fun f hf ↦ h f (List.mem_cons_of_mem _ hf)
    cases items with
    | nil =>
      rw [ofItems, ofItems]
      split
      · exact .throw _
      · exact ih hrest (index + 1) hdraft []
    | cons v rest =>
      have hread := (h f List.mem_cons_self v draft draft' hdraft).bind fun a b hab ↦
        ih hrest (index + 1) hab rest
      simpa only [bind_map_left, ofItems] using hread

/-- Records whose fields look the same do so as a whole. -/
theorem alike (h : ∀ f ∈ r.fields, f.Alike look) (v : Json) :
    Alike look (r.decode v) (r.decode v) := by
  cases v with
  | object members => exact alike_ofMembers h [] rfl members
  | torn members rest =>
    have hlenient : ∀ f ∈ r.lenient.fields, f.Alike look := List.forall_mem_map.mpr h
    exact (alike_ofMembers hlenient [] rfl members).bind fun _ _ _ ↦ .throw _
  | array items => exact alike_ofItems h 0 rfl items
  | _ => exact .throw _

end Record

/-- What a document holds looks the same where its value does. -/
theorem alike_document (h : ∀ v, Alike look (decode v) (decode v)) (d : Json.Document) :
    Alike look (document decode d) (document decode d) := by
  refine (h _).bind fun a b hab ↦ ?_
  split
  · exact .pure hab
  · exact .throw _

/-- What a text holds looks the same where its value does. -/
theorem alike_text (h : ∀ v, Alike look (decode v) (decode v)) (s : String) :
    Alike look (text decode s) (text decode s) := alike_document h _

end Decode

end Cil
