import Cil.Code.Decode
import Cil.Proofs.Decode.Outcome
import Mathlib.Order.Interval.Finset.Nat
import Mathlib.Order.Interval.Multiset

/-!
# Identities that decoders draw

The identities of a decoded value are new: all of them come from the supply, and none is used
twice, whatever is decoded and whether or not the text holds anything. This is kept for any
decoder as `DecodeM.Draws`, and shown of parts in the order in which they are decoded.
-/

namespace Cil

namespace Supply

/-- The identities handed out on the way from one supply to a later one. -/
def issued (s t : Supply) : Multiset InstrId := (Multiset.Ico s.next t.next).map InstrId.mk

variable {s t u : Supply}

/-- An identity is handed out in between when it lies between the two that are next. -/
theorem mem_issued_iff {id : InstrId} : id ∈ s.issued t ↔ s.next ≤ id.val ∧ id.val < t.next := by
  rw [issued, Multiset.mem_map]
  constructor
  · rintro ⟨n, hn, rfl⟩
    exact Multiset.mem_Ico.mp hn
  · intro h
    exact ⟨id.val, Multiset.mem_Ico.mpr h, rfl⟩

/-- No identity is handed out twice. -/
theorem nodup_issued (s t : Supply) : (s.issued t).Nodup := by
  apply Multiset.Nodup.map _ (Multiset.nodup_Ico)
  intro m n h
  exact InstrId.mk.inj h

/-- As many identities are handed out as the supply moves on by. -/
theorem card_issued (s t : Supply) : (s.issued t).card = t.next - s.next := by
  rw [issued, Multiset.card_map]
  exact Nat.card_Ico s.next t.next

/-- Between a supply and itself nothing is handed out. -/
@[simp] theorem issued_self (s : Supply) : s.issued s = 0 := by
  rw [issued, Multiset.Ico_self, Multiset.map_zero]

/-- Taking an identity hands out that one. -/
@[simp] theorem issued_take (s : Supply) : s.issued s.take.2 = {s.take.1} := by
  rw [issued, take, Multiset.Ico, Nat.Ico_succ_singleton, Finset.singleton_val,
    Multiset.map_singleton]

/-- What is handed out up to a supply and from there on is handed out in all. -/
theorem issued_add (hst : s.next ≤ t.next) (htu : t.next ≤ u.next) :
    s.issued t + t.issued u = s.issued u := by
  rw [issued, issued, ← Multiset.map_add, Multiset.Ico_add_Ico_eq_Ico hst htu, ← issued]

end Supply

namespace DecodeM

variable {α β : Type} {given : Multiset InstrId} {ids : α → Multiset InstrId}

/-- The identities of what a decoder comes to are among those given and those it takes from the
supply. -/
def Draws (given : Multiset InstrId) (ids : α → Multiset InstrId) (x : DecodeM α) : Prop :=
  ∀ s, s.next ≤ (x.outcome s).2.next ∧
    ∀ a, (x.outcome s).1 = .ok a → ids a ≤ given + s.issued (x.outcome s).2

namespace Draws

private theorem ofExcept {x : Except DecodeError α} (h : ∀ a, x = .ok a → ids a ≤ given) :
    Draws given ids (.ofExcept x) := by
  intro s
  rw [outcome_ofExcept]
  refine ⟨Nat.le_refl _, fun a ha ↦ ?_⟩
  rw [Supply.issued_self, add_zero]
  exact h a ha

/-- What hands out nothing draws nothing. -/
theorem plain (x : Except DecodeError α) : Draws 0 (fun _ ↦ 0) (.ofExcept x) :=
  ofExcept fun _ _ ↦ le_refl 0

private theorem pure {a : α} (h : ids a ≤ given) : Draws given ids (Pure.pure a) := by
  apply ofExcept (x := .ok a)
  intro b hb
  cases hb
  exact h

private theorem throw (e : DecodeError) : Draws given ids (MonadExcept.throw e) :=
  ofExcept (x := .error e) fun _ hb ↦ nomatch hb

private theorem fresh : Draws 0 (fun id ↦ {id}) DecodeM.fresh := by
  intro s
  rw [outcome_fresh, Supply.issued_take]
  refine ⟨Nat.le_succ _, fun id hid ↦ ?_⟩
  obtain rfl : s.take.1 = id := by simpa using hid
  simp

private theorem bind {x : DecodeM α} {f : α → DecodeM β} {ids' : β → Multiset InstrId}
    (hx : Draws given ids x) (hf : ∀ a, Draws (ids a) ids' (f a)) :
    Draws given ids' (x >>= f) := by
  intro s
  obtain ⟨hle, hids⟩ := hx s
  rw [outcome_bind]
  rcases h : x.outcome s with ⟨e | a, t⟩
  · rw [h] at hle
    exact ⟨hle, fun b hb ↦ nomatch hb⟩
  · rw [h] at hle hids
    obtain ⟨hle', hids'⟩ := hf a t
    refine ⟨Nat.le_trans hle hle', fun b hb ↦ ?_⟩
    calc ids' b
      _ ≤ ids a + t.issued _ := hids' b hb
      _ ≤ given + s.issued t + t.issued _ := add_le_add_left (hids a rfl) _
      _ = given + s.issued _ := by rw [add_assoc, Supply.issued_add hle hle']

private theorem beside {x : DecodeM α} (hx : Draws 0 ids x) (given : Multiset InstrId) :
    Draws given (fun a ↦ given + ids a) x := by
  intro s
  obtain ⟨hle, hids⟩ := hx s
  refine ⟨hle, fun a ha ↦ ?_⟩
  rw [zero_add] at hids
  exact add_le_add_right (hids a ha) given

/-- A value that is changed keeps to the identities it had. -/
theorem map {x : DecodeM α} {f : α → β} {ids' : β → Multiset InstrId} (hx : Draws given ids x)
    (hf : ∀ a, ids' (f a) ≤ ids a) : Draws given ids' (f <$> x) := by
  rw [map_eq_pure_bind]
  exact hx.bind fun a ↦ pure (hf a)

end Draws

end DecodeM

namespace Decode

variable {α ρ : Type} {held : α → Multiset InstrId} {decode : Json → DecodeM α}

open DecodeM (Draws)

/-- The items of a list draw their identities one after the other. -/
theorem draws_list (h : ∀ v, Draws 0 held (decode v)) (v : Json) :
    Draws 0 (fun l ↦ (l.map held).sum) (list decode v) := by
  cases v with
  | array items =>
    rw [list]
    induction items with
    | nil => exact .pure (Multiset.zero_le _)
    | cons v rest ih =>
      rw [List.mapM_cons]
      refine (h v).bind fun a ↦ (ih.beside (held a)).bind fun l ↦ .pure ?_
      rw [List.map_cons, List.sum_cons]
  | _ => exact .throw _

/-- What a list comes to has identities from the supply, and those of later items are later. -/
theorem ascending_of_mapM (h : ∀ v, Draws 0 held (decode v)) {items : List Json} {l : List α}
    {s t : Supply} (hl : (items.mapM decode).outcome s = (.ok l, t)) :
    s.next ≤ t.next ∧ (∀ a ∈ l, held a ≤ s.issued t) ∧
      l.Pairwise fun a b ↦ ∀ i ∈ held a, ∀ j ∈ held b, i.val < j.val := by
  induction items generalizing l s with
  | nil =>
    obtain ⟨rfl, rfl⟩ : l = [] ∧ t = s := by simpa [eq_comm] using hl
    simp
  | cons v rest ih =>
    rw [List.mapM_cons, DecodeM.outcome_bind] at hl
    obtain ⟨hfirst, hids⟩ := h v s
    rcases ha : (decode v).outcome s with ⟨e | a, u⟩
    · rw [ha] at hl
      cases congrArg Prod.fst hl
    · rw [ha] at hl hfirst hids
      simp only [DecodeM.outcome_bind] at hl
      rcases hrest : (rest.mapM decode).outcome u with ⟨e | l', w⟩
      · rw [hrest] at hl
        cases congrArg Prod.fst hl
      · rw [hrest] at hl
        obtain ⟨rfl, rfl⟩ : a :: l' = l ∧ w = t := by simpa using hl
        obtain ⟨hlast, hheld, hpairwise⟩ := ih hrest
        have hall : s.issued u + u.issued w = s.issued w := Supply.issued_add hfirst hlast
        have ha : held a ≤ s.issued u := by simpa using hids a rfl
        refine ⟨hfirst.trans hlast, List.forall_mem_cons.mpr ⟨?_, fun b hb ↦ ?_⟩,
          List.pairwise_cons.mpr ⟨fun b hb i hi j hj ↦ ?_, hpairwise⟩⟩
        · rw [← hall]
          exact ha.trans (Multiset.le_add_right _ _)
        · rw [← hall]
          exact (hheld b hb).trans (Multiset.le_add_left _ _)
        · have hbefore := Supply.mem_issued_iff.mp (Multiset.mem_of_le ha hi)
          have hafter := Supply.mem_issued_iff.mp (Multiset.mem_of_le (hheld b hb) hj)
          omega

/-- A list of what draws nothing draws nothing. -/
theorem draws_list_plain (h : ∀ v, Draws 0 (fun _ ↦ 0) (decode v)) (v : Json) :
    Draws 0 (fun _ ↦ 0) (list decode v) := by
  simpa using draws_list h v

/-- A value that may be left out draws what it would draw itself. -/
theorem draws_optional (h : ∀ v, Draws 0 held (decode v)) (v : Json) :
    Draws 0 (fun o ↦ (o.map held).getD 0) (optional decode v) := by
  cases v with
  | null => exact .pure (Multiset.zero_le _)
  | _ => exact (h _).map fun a ↦ le_refl (held a)

/-- A value that may be left out and draws nothing itself draws nothing. -/
theorem draws_optional_plain (h : ∀ v, Draws 0 (fun _ ↦ 0) (decode v)) (v : Json) :
    Draws 0 (fun _ ↦ 0) (optional decode v) := by
  cases v with
  | null => exact .pure (le_refl 0)
  | _ => exact (h _).map fun _ ↦ le_refl 0

/-! ### Records -/

variable {ids : ρ → Multiset InstrId}

/-- Reading the field adds to the identities of a record no others than those that are drawn. -/
def Field.Draws (ids : ρ → Multiset InstrId) (f : Field DecodeM ρ) : Prop :=
  ∀ v draft, DecodeM.Draws (ids draft) (fun update ↦ ids (update draft)) (f.read v)

/-- Whether or not it is required, a field draws what its value draws. -/
theorem Field.draws_of_put {put : α → ρ → ρ} {name : String} {isRequired : Bool}
    (h : ∀ v, DecodeM.Draws 0 held (decode v)) (hp : ∀ a r, ids (put a r) ≤ ids r + held a) :
    Field.Draws ids ⟨name, fun v ↦ put <$> decode v, isRequired⟩ :=
  fun v draft ↦ ((h v).beside (ids draft)).map fun a ↦ hp a draft

/-- Whether or not it is required, a field without identities draws nothing. -/
theorem Field.draws_of_plain {put : α → ρ → ρ} {name : String} {isRequired : Bool}
    (h : ∀ v, DecodeM.Draws 0 (fun _ ↦ 0) (decode v)) (hp : ∀ a r, ids (put a r) = ids r) :
    Field.Draws ids ⟨name, fun v ↦ put <$> decode v, isRequired⟩ :=
  draws_of_put h fun a r ↦ (hp a r).le.trans (Multiset.le_add_right _ _)

namespace Record

variable {r : Record DecodeM ρ}

private theorem draws_ofMembers (h : ∀ f ∈ r.fields, f.Draws ids) (given : List String) (draft : ρ)
    (members : List (String × Json)) :
    Draws (ids draft) ids (r.ofMembers given draft members) := by
  induction members generalizing given draft with
  | nil =>
    rw [ofMembers]
    split
    · exact .throw _
    · exact .pure (le_refl _)
  | cons member rest ih =>
    obtain ⟨name, v⟩ := member
    rw [ofMembers]
    split
    next =>
      split
      · exact ih given draft
      · exact .throw _
    next f hf =>
      split
      · exact .throw _
      · have hmem : f ∈ r.fields := List.mem_of_find?_eq_some hf
        exact (h f hmem v draft).bind fun update ↦ ih (name :: given) (update draft)

private theorem draws_ofItems {fields : List (Field DecodeM ρ)} (h : ∀ f ∈ fields, f.Draws ids)
    (index : Nat) (draft : ρ) (items : List Json) :
    Draws (ids draft) ids (r.ofItems index draft fields items) := by
  induction fields generalizing index draft items with
  | nil =>
    cases items with
    | nil => exact .pure (le_refl _)
    | cons v rest => exact .throw _
  | cons f fields ih =>
    have hrest : ∀ f ∈ fields, f.Draws ids := fun f hf ↦ h f (List.mem_cons_of_mem _ hf)
    cases items with
    | nil =>
      rw [ofItems]
      split
      · exact .throw _
      · exact ih hrest (index + 1) draft []
    | cons v rest =>
      have hf : f.Draws ids := h f List.mem_cons_self
      exact (hf v draft).bind fun update ↦ ih hrest (index + 1) (update draft) rest

/-- A record draws what its fields draw. -/
theorem draws (h : ∀ f ∈ r.fields, f.Draws ids) (hblank : ids r.blank = 0) (v : Json) :
    Draws 0 ids (r.decode v) := by
  rw [← hblank]
  cases v with
  | object members => exact draws_ofMembers h [] r.blank members
  | torn members rest =>
    have hlenient : ∀ f ∈ r.lenient.fields, f.Draws ids := List.forall_mem_map.mpr h
    exact (draws_ofMembers hlenient [] r.blank members).bind fun _ ↦ .throw _
  | array items => exact draws_ofItems h 0 r.blank items
  | _ => exact .throw _

end Record

/-- Decoding a text draws what decoding its value draws. -/
theorem draws_text (h : ∀ v, Draws 0 held (decode v)) (s : String) :
    Draws 0 held (text decode s) := by
  refine (h _).bind fun a ↦ ?_
  split
  · exact .pure (le_refl _)
  · exact .throw _

end Decode

/-! ### Instructions -/

/-- The identities of instructions. -/
def Instr.ids (l : List Instr) : Multiset InstrId := l.map (·.id)

/-- The identities of code. -/
def Code.ids (c : Code) : Multiset InstrId := Instr.ids c.toList

/-- An instruction draws its identity. -/
theorem Instr.draws_decode (v : Json) : DecodeM.Draws 0 (fun i : Instr ↦ {i.id}) (decode v) := by
  have hr (id : InstrId) : DecodeM.Draws {id} (fun _ ↦ {id}) (.ofExcept (record.decode v)) :=
    .ofExcept fun _ _ ↦ le_refl _
  cases v with
  | array items => exact DecodeM.Draws.fresh.bind fun id ↦ (hr id).bind fun _ ↦ .pure (le_refl _)
  | _ =>
    refine (DecodeM.Draws.plain _).bind fun _ ↦ ?_
    exact DecodeM.Draws.fresh.bind fun id ↦ .pure (le_refl _)

/-- Code draws the identities of its instructions. -/
theorem Code.draws_decode (v : Json) : DecodeM.Draws 0 Code.ids (decode v) := by
  refine (Decode.draws_list Instr.draws_decode v).map fun l ↦ ?_
  rw [ids, Instr.ids, ← Multiset.sum_map_singleton (Multiset.ofList _), Multiset.map_coe,
    Multiset.sum_coe, List.map_map]
  exact le_refl _

end Cil
