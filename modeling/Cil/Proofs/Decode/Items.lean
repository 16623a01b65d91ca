import Cil.Proofs.Decode.Alike
import Cil.Proofs.Decode.Gives
import Cil.Proofs.Decode.Written

/-!
# Lists, item by item

A list is decoded if each of its items is decoded as a text of its own. Otherwise the error is that
of the first item that is not, whatever comes after it: `itemByItem_of_mapM`. This rests on the
items being decoded in order, and on none of them depending on the supply but for identities.
-/

namespace Cil

namespace Decode

/-! ### Items that hand out nothing -/

section Except

variable {α β : Type} {f : α → Except DecodeError β} {l : List α}

private theorem mapM_eq_ok_iff {bs : List β} :
    l.mapM f = .ok bs ↔ List.Forall₂ (fun b a ↦ f a = .ok b) bs l := by
  constructor
  · exact forall₂_of_gives_mapM (m := Except DecodeError)
  · intro h
    induction h with
    | nil => rfl
    | cons hb _ ih =>
      rw [List.mapM_cons, hb, ih]
      rfl

private theorem mapM_eq_error_iff {e : DecodeError} : l.mapM f = .error e ↔ ∃ before a after,
    l = before ++ a :: after ∧ (∀ a' ∈ before, ∃ b, f a' = .ok b) ∧ f a = .error e := by
  constructor
  · intro h
    induction l with
    | nil => cases h
    | cons a rest ih =>
      rw [List.mapM_cons] at h
      cases ha : f a with
      | error e' =>
        rw [ha] at h
        obtain rfl := Except.error.inj h
        exact ⟨[], a, rest, rfl, List.forall_mem_nil _, ha⟩
      | ok b =>
        rw [ha] at h
        cases hrest : rest.mapM f with
        | ok bs =>
          rw [hrest] at h
          cases h
        | error e' =>
          rw [hrest] at h
          obtain rfl := Except.error.inj h
          obtain ⟨before, a', after, rfl, hbefore, ha'⟩ := ih hrest
          exact ⟨a :: before, a', after, rfl, List.forall_mem_cons.mpr ⟨⟨b, ha⟩, hbefore⟩, ha'⟩
  · rintro ⟨before, a, after, rfl, hbefore, ha⟩
    induction before with
    | nil =>
      rw [List.nil_append, List.mapM_cons, ha]
      rfl
    | cons a' before ih =>
      obtain ⟨⟨b, hb⟩, hrest⟩ := List.forall_mem_cons.mp hbefore
      rw [List.cons_append, List.mapM_cons, hb, ih hrest]
      rfl

private theorem exists_mapM_eq_ok_iff : (∃ bs, l.mapM f = .ok bs) ↔ ∀ a ∈ l, ∃ b, f a = .ok b := by
  constructor
  · rintro ⟨bs, hbs⟩ a ha
    obtain ⟨b, -, hb⟩ := exists_mem_of_forall₂ (mapM_eq_ok_iff.mp hbs) ha
    exact ⟨b, hb⟩
  · intro h
    cases hl : l.mapM f with
    | ok bs => exact ⟨bs, rfl⟩
    | error e =>
      obtain ⟨before, a, after, rfl, -, ha⟩ := mapM_eq_error_iff.mp hl
      obtain ⟨b, hb⟩ := h a (List.mem_append_right _ List.mem_cons_self)
      rw [ha] at hb
      cases hb

end Except

/-! ### Values decoded alone -/

open DecodeM (Alike)

variable {α γ : Type} {look : α → γ} {decode : Json → DecodeM α} {v : Json}

/-- The value is decoded as a text of its own, with any supply. -/
def DecodesAlone (decode : Json → DecodeM α) (v : Json) : Prop :=
  ∀ s, ∃ a t, (part decode v).outcome s = (.ok a, t)

/-- The value is not decoded as a text of its own, with this error for any supply. -/
def FailsAlone (decode : Json → DecodeM α) (v : Json) (e : DecodeError) : Prop :=
  ∀ s, ((part decode v).outcome s).1 = .error e

private theorem outcome_document {d : Json.Document} (hd : d.isWellFormed) (s : Supply) :
    (document decode d).outcome s = (decode d.root).outcome s := by
  rw [document, DecodeM.outcome_bind]
  rcases (decode d.root).outcome s with ⟨e | a, t⟩
  · rfl
  · simp only [hd, if_true, DecodeM.outcome_pure]

private theorem exists_ok_iff_of_alike {x : DecodeM α} (h : Alike look x x) (s : Supply) :
    (∀ t, ∃ a u, x.outcome t = (.ok a, u)) ↔ ∃ c, (x.outcome s).1.map look = .ok c := by
  constructor
  · intro hok
    obtain ⟨a, u, ha⟩ := hok s
    exact ⟨look a, by rw [ha]; rfl⟩
  · rintro ⟨c, hc⟩ t
    rw [← h t s] at hc
    rcases ht : x.outcome t with ⟨e | a, u⟩
    · rw [ht] at hc
      cases hc
    · exact ⟨a, u, rfl⟩

private theorem error_iff_of_alike {x : DecodeM α} (h : Alike look x x) (s : Supply)
    {e : DecodeError} :
    (∀ t, (x.outcome t).1 = .error e) ↔ (x.outcome s).1.map look = .error e := by
  constructor
  · intro herror
    rw [herror s]
    rfl
  · intro herror t
    rw [← h t s] at herror
    rcases ht : (x.outcome t).1 with e' | a
    · rw [ht] at herror
      exact congrArg Except.error (Except.error.inj herror)
    · rw [ht] at herror
      cases herror

private theorem outcome_mapM_map (h : ∀ v, Alike look (decode v) (decode v)) (items : List Json)
    (s t : Supply) : ((items.mapM decode).outcome s).1.map (List.map look) =
      items.mapM fun v ↦ ((decode v).outcome t).1.map look := by
  induction items generalizing s with
  | nil => rfl
  | cons v rest ih =>
    rw [List.mapM_cons, List.mapM_cons, ← h v s t, DecodeM.outcome_bind]
    rcases (decode v).outcome s with ⟨e | a, u⟩
    · rfl
    · dsimp only
      rw [← ih u, DecodeM.outcome_bind]
      rcases (rest.mapM decode).outcome u with ⟨e | l, w⟩ <;> rfl

/-- In a well-formed object, members of names that no field has change nothing. -/
theorem Record.ofMembers_filter {m : Type → Type} [Monad m] [MonadExceptOf DecodeError m]
    {ρ : Type} {r : Record m ρ} {given : List String} {draft : ρ} {members : List (String × Json)}
    (h : (Json.object members).isWellFormed) :
    r.ofMembers given draft (members.filter fun m ↦ (r.field? m.1).isSome) =
      r.ofMembers given draft members := by
  induction members generalizing given draft with
  | nil => rfl
  | cons member rest ih =>
    obtain ⟨name, v⟩ := member
    obtain ⟨hv, hrest⟩ := (Bool.and_eq_true _ _).mp h
    have hv : v.isWellFormed := hv
    cases hfield : r.field? name with
    | none => simp [ofMembers, hfield, hv, ih hrest]
    | some f => simp [ofMembers, hfield, ih hrest]

/-! ### Documents that hold a list -/

/-- What a text comes to that is nested no deeper than texts are read is what its value comes to. -/
theorem outcome_of_runText {s : String} (hd : (Json.Document.ofText s).isWellFormed)
    (hdepth : (Json.Document.ofText s).root.depth ≤ depthLimit) (supply : Supply) :
    DecodeM.runText decode s supply = (decode (Json.Document.ofText s).root).outcome supply := by
  rw [← DecodeM.outcome_text, text, Json.Document.clip, Json.clip_eq_self hdepth]
  exact outcome_document hd supply

private theorem outcome_part (hv : v.isWellFormed) (hdepth : v.depth ≤ depthLimit) (s : Supply) :
    (part decode v).outcome s = (decode v).outcome s := by
  have hd : Json.Document.isWellFormed { root := v, isWhole := true } := hv
  rw [part, Json.clip_eq_self hdepth]
  exact outcome_document hd s

/-- What a list of values comes to, in terms of the values alone. -/
structure ItemByItem (decode : Json → DecodeM α) (look : α → γ) (items : List Json)
    (result : Except DecodeError (List α)) : Prop where
  /-- The list is decoded if each item is, alone. -/
  ok_iff : (∃ l, result = .ok l) ↔ ∀ v ∈ items, DecodesAlone decode v
  /-- It then has a value for each item, in order, that looks like what the item comes to alone. -/
  alike {l : List α} : result = .ok l → List.Forall₂
    (fun a v ↦ ∀ s b t, (part decode v).outcome s = (.ok b, t) → look a = look b) l items
  /-- Otherwise the error is that of the first item that is not decoded alone, whatever comes after
  it. -/
  error_iff (e : DecodeError) : result = .error e ↔ ∃ before v after,
    items = before ++ v :: after ∧ (∀ u ∈ before, DecodesAlone decode u) ∧ FailsAlone decode v e

/-- What comes to the items of a list, decoded one after the other, does so item by item. -/
theorem itemByItem_of_mapM {items : List Json} {result : Except DecodeError (List α)}
    (h : ∀ v, Alike look (decode v) (decode v))
    (hitems : ∀ v ∈ items, v.isWellFormed ∧ v.depth ≤ depthLimit) {s : Supply}
    (hresult : result = ((items.mapM decode).outcome s).1) :
    ItemByItem decode look items result := by
  have hpart (v : Json) : Alike look (part decode v) (part decode v) := alike_document h _
  have hsame : ∀ v ∈ items, ∀ t, (part decode v).outcome t = (decode v).outcome t :=
    fun v hv ↦ outcome_part (hitems v hv).1 (hitems v hv).2
  -- what the items look like does not depend on the supply, so the list of looks is one of values
  -- that hand out nothing, where the laws above say which error comes first
  have hlooks : result.map (List.map look) =
      items.mapM fun v ↦ ((decode v).outcome s).1.map look := by
    rw [hresult]
    exact outcome_mapM_map h items s s
  have halone : ∀ v ∈ items, DecodesAlone decode v ↔
      ∃ c, ((decode v).outcome s).1.map look = .ok c := by
    intro v hv
    rw [DecodesAlone, exists_ok_iff_of_alike (hpart v) s, hsame v hv]
  constructor
  case ok_iff =>
    calc (∃ l, result = .ok l)
      _ ↔ ∃ cs, items.mapM (fun v ↦ ((decode v).outcome s).1.map look) = .ok cs := by
        rw [← hlooks]
        cases result <;> simp [Except.map]
      _ ↔ ∀ v ∈ items, ∃ c, ((decode v).outcome s).1.map look = .ok c := exists_mapM_eq_ok_iff
      _ ↔ ∀ v ∈ items, DecodesAlone decode v := forall₂_congr fun v hv ↦ (halone v hv).symm
  case alike =>
    rintro l rfl
    have hforall := List.forall₂_map_left_iff.mp (mapM_eq_ok_iff.mp hlooks.symm)
    apply (((List.forall₂_and_left items l).mpr ⟨hsame, hforall.flip⟩).imp _).flip
    rintro v a ⟨hv, ha⟩ t b u hb
    have htold := hpart v s t
    rw [hv, ha, hb] at htold
    exact Except.ok.inj htold
  case error_iff =>
    intro e
    have hfails : ∀ v ∈ items, FailsAlone decode v e ↔
        ((decode v).outcome s).1.map look = .error e := by
      intro v hv
      rw [FailsAlone, error_iff_of_alike (hpart v) s, hsame v hv]
    have hlist : result = .error e ↔
        items.mapM (fun v ↦ ((decode v).outcome s).1.map look) = .error e := by
      rw [← hlooks]
      cases result <;> simp [Except.map]
    rw [hlist, mapM_eq_error_iff]
    refine exists₃_congr fun before v after ↦ and_congr_right ?_
    rintro rfl
    have hbefore : ∀ u ∈ before, u ∈ before ++ v :: after := fun u hu ↦ List.mem_append_left _ hu
    have hv : v ∈ before ++ v :: after := List.mem_append_right _ List.mem_cons_self
    exact and_congr (forall₂_congr fun u hu ↦ (halone u (hbefore u hu)).symm) (hfails v hv).symm

end Decode

end Cil
