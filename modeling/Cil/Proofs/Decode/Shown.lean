import Cil.Proofs.Decode.Stated
import Cil.Proofs.Json.Query

/-!
# Where the parts of a value are written

A query shows the parts of a value when it leads from each written form of the value to written
forms of the parts, in order. Queries for lists, values that there may be and records are made of
those for what these hold. Where a text is decoded, the parts are found in the text itself:
`Writing.Shows.forall₂_places`.
-/

namespace Cil

open Json (Query Step valuesOf)

namespace Json.Step

variable {name : String}

private theorem flatMap_range_getElem? {α : Type} (l : List α) :
    (List.range l.length).flatMap (fun k ↦ l[k]?.toList) = l := by
  induction l with
  | nil => rfl
  | cons a rest ih =>
    rw [List.length_cons, List.range_succ_eq_map, List.flatMap_cons, List.flatMap_map]
    exact congrArg (a :: ·) ih

private theorem values_items (items : List Json) : Step.items.values (.array items) = items :=
  flatMap_range_getElem? items

private theorem values_field_object (names : List String) (members : List (String × Json)) :
    (field names name).values (.object members) = valuesOf name members := by
  show ((List.range (members.map Prod.fst).length).filter fun k ↦
    (members.map Prod.fst)[k]? = some name).flatMap (fun k ↦ (members.map Prod.snd)[k]?.toList) = _
  induction members with
  | nil => rfl
  | cons member rest ih =>
    obtain ⟨key, v⟩ := member
    rw [List.map_cons, List.map_cons, List.length_cons, List.range_succ_eq_map, List.filter_cons,
      List.filter_map]
    by_cases hkey : key = name
    · subst hkey
      rw [valuesOf_cons_self, ← ih]
      simp [List.flatMap_map, Function.comp_def]
    · rw [valuesOf_cons_of_ne hkey, ← ih]
      simp [List.flatMap_map, Function.comp_def, hkey]

private theorem values_field_array (names : List String) (items : List Json) :
    (field names name).values (.array items) = items[names.idxOf name]?.toList := by
  show ([names.idxOf name].filter (· < items.length)).flatMap (fun k ↦ items[k]?.toList) = _
  by_cases hlt : names.idxOf name < items.length <;> simp [hlt]

/-- Beside the name of a variant is one value. -/
theorem values_variant (name : String) (v : Json) :
    (variant name).values (.object [(name, v)]) = [v] := by
  simp [Step.values, pick, shape, children]

/-- There is nothing for a variant beside another name. -/
theorem values_variant_of_ne {other : String} (h : other ≠ name) (v : Json) :
    (variant name).values (.object [(other, v)]) = [] := by
  simp [Step.values, pick, shape, h]

end Json.Step

namespace Decode

variable {α β γ ρ : Type}

private theorem forall₂_flatMap {δ : Type} {R : α → β → Prop} {S : γ → δ → Prop} {f : α → List γ}
    {g : β → List δ} {l : List α} {l' : List β} (h : List.Forall₂ R l l')
    (hfg : ∀ {a b}, R a b → List.Forall₂ S (f a) (g b)) :
    List.Forall₂ S (l.flatMap f) (l'.flatMap g) := by
  induction h with
  | nil => exact .nil
  | cons hab _ ih =>
    rw [List.flatMap_cons, List.flatMap_cons]
    exact List.rel_append (hfg hab) ih

/-- The query leads from each written form of a value to written forms of its parts, in order. -/
structure Writing.Shows (w : Writing α) (q : Query) (part : Writing β) (parts : α → List β) :
    Prop where
  forall₂ {a v} : w.Writes a v → List.Forall₂ part.Writes (parts a) (q.values v)

namespace Writing.Shows

variable {w : Writing α} {p q : Query} {part : Writing β} {parts parts' : α → List β}

/-- A value is the only part of itself. -/
theorem here (w : Writing α) : w.Shows .here w fun a ↦ [a] where
  forall₂ h := .cons h .nil

/-- The parts that two queries show. -/
theorem both (hp : w.Shows p part parts) (hq : w.Shows q part parts') :
    w.Shows (.both p q) part fun a ↦ parts a ++ parts' a where
  forall₂ h := List.rel_append (hp.forall₂ h) (hq.forall₂ h)

/-- The parts of all items of a list. -/
theorem list (h : w.Shows q part parts) :
    w.list.Shows (.inside .items q) part fun l ↦ l.flatMap parts where
  forall₂ := by
    rintro l v ⟨items, rfl, hitems⟩
    rw [Query.values, Json.Step.values_items]
    exact forall₂_flatMap hitems h.forall₂

/-- The parts of a value that there may be. -/
theorem optional (h : w.Shows q part parts) (hnull : q.values .null = []) :
    w.optional.Shows q part fun o ↦ o.toList.flatMap parts where
  forall₂ {o v} hv := by
    cases o with
    | none =>
      obtain rfl : v = .null := hv
      rw [hnull]
      exact .nil
    | some a =>
      rw [Option.toList_some, List.flatMap_singleton]
      exact h.forall₂ hv

/-- The parts of what an entry of a record has. -/
theorem record {entries : List (Entry ρ)} {e : Entry ρ} {parts : e.α → List β}
    (he : e ∈ entries) (hnodup : (entries.map (·.name)).Nodup) (h : e.writing.Shows q part parts)
    (hdefault : e.default?.elim [] parts = []) (plain : ρ → ρ) :
    (Writing.record entries plain).Shows
      (.inside (.field (entries.map (·.name)) e.name) q) part fun r ↦ parts (e.get r) := by
  constructor
  intro r v hv
  have hstated : e.StatedBy r ((Step.field (entries.map (·.name)) e.name).values v) := by
    have hstates := states_of_form hnodup hv
    cases v with
    | object members =>
      rw [Json.Step.values_field_object]
      exact hstates e he
    | array items =>
      have hname := List.getElem?_idxOf (List.mem_map_of_mem (f := (·.name)) he)
      rw [List.getElem?_map, Option.map_eq_some_iff] at hname
      obtain ⟨e', he', hname⟩ := hname
      obtain rfl : e' = e := List.inj_on_of_nodup_map hnodup (List.mem_of_getElem? he') he hname
      rw [Json.Step.values_field_array]
      exact hstates.2 _ e' he'
    | _ => exact hstates.elim
  -- the entry is stated by all values that the step leads to, so there is at most one
  rw [Query.values]
  generalize (Step.field (entries.map (·.name)) e.name).values v = values at hstated
  cases values with
  | nil =>
    rw [show e.default? = some (e.get r) from hstated] at hdefault
    rw [show parts (e.get r) = [] from hdefault]
    exact .nil
  | cons u rest =>
    obtain ⟨hu, rfl⟩ := Entry.statedBy_cons_iff.mp hstated
    rw [List.flatMap_singleton]
    exact h.forall₂ hu

/-- Where a text is decoded, the parts of the value are written in the places of the text. -/
theorem forall₂_places {m : Type → Type} [Monad m] [MonadExceptOf DecodeError m] [Inverts m]
    {decode : Json → m α} (h : w.Shows q part parts) (hread : w.IsReadBy decode)
    (hheight : q.height ≤ depthLimit) {s : String} {a : α} (ha : Gives (text decode s) a) :
    List.Forall₂ (fun b path ↦ ∃ u k,
        follow Json.children (Json.Document.ofText s).root path = some u ∧ part.Writes b (u.clip k))
      (parts a) (q.places (Json.Document.ofText s).root) := by
  obtain ⟨-, hroot⟩ := gives_of_gives_document ha
  have hparts : List.Forall₂ (fun b o ↦ ∃ u, o = some u ∧ part.Writes b u) (parts a)
      ((q.values ((Json.Document.ofText s).clip depthLimit).root).map some) := by
    rw [List.forall₂_map_right_iff]
    exact (h.forall₂ (hread hroot)).imp fun b u hu ↦ ⟨u, rfl, hu⟩
  rw [← Query.map_follow_places, List.forall₂_map_right_iff, Json.Document.clip,
    Query.places_clip hheight] at hparts
  apply hparts.imp
  rintro b path ⟨u, hfollow, hu⟩
  obtain ⟨w, k, hw, rfl⟩ := Json.follow_clip hfollow
  exact ⟨w, k, hw, hu⟩

end Writing.Shows

end Decode

end Cil
