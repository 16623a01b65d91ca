import Cil.Proofs.Decode.Gives
import Cil.Proofs.Decode.Written

/-!
# What a document states of a record

A record comes from nothing but its written forms, and what these are is said here entry by entry:
an object states an entry by the values of the members of its name, an array by the item in its
place. Where nothing is stated the entry has its default, and it is stated at most once. Main
statement: `Record.Implements.decode_eq_ok_iff`.
-/

namespace Cil

/-- The values of the members of this name, in order. -/
def Json.valuesOf (name : String) (members : List (String × Json)) : List Json :=
  (members.filter fun m ↦ m.1 == name).map Prod.snd

namespace Json

/-- One more member of the name has one more value. -/
theorem valuesOf_cons_self (name : String) (v : Json) (rest : List (String × Json)) :
    valuesOf name ((name, v) :: rest) = v :: valuesOf name rest := by
  simp [valuesOf]

/-- A member of another name does not count. -/
theorem valuesOf_cons_of_ne {name other : String} (h : other ≠ name) (v : Json)
    (rest : List (String × Json)) :
    valuesOf name ((other, v) :: rest) = valuesOf name rest := by
  simp [valuesOf, h]

end Json

namespace Decode

open Json (valuesOf)

variable {m : Type → Type} [Monad m] [MonadExceptOf DecodeError m] {α ρ : Type}
  {entries pending : List (Entry ρ)} {r : ρ}

namespace Entry

/-- The values that are given for an entry state it: none leaves it out, and one writes it. -/
def StatedBy (e : Entry ρ) (r : ρ) : List Json → Prop
  | [] => e.Omits r
  | [v] => e.Writes r v
  | _ => False

end Entry

/-- The value states each entry of a record, and there is no item behind those of the entries. -/
def States (entries : List (Entry ρ)) (r : ρ) : Json → Prop
  | .object members => ∀ e ∈ entries, e.StatedBy r (valuesOf e.name members)
  | .array items => items.length ≤ entries.length ∧
    ∀ (k : Nat) (e : Entry ρ), entries[k]? = some e → e.StatedBy r items[k]?.toList
  | _ => False

/-! ### From what is stated to the written form -/

/-- An entry for which there is a value is stated by that one alone. -/
theorem Entry.statedBy_cons_iff {e : Entry ρ} {v : Json} {rest : List Json} :
    e.StatedBy r (v :: rest) ↔ e.Writes r v ∧ rest = [] := by
  cases rest with
  | nil => simp [Entry.StatedBy]
  | cons _ _ => simp [Entry.StatedBy]

-- By induction on the members, with the entries that have not been given. The names of the others
-- do not come up again.
private theorem members_of_stated {names : List String} {members : List (String × Json)}
    (hwell : (Json.object members).isWellFormed) (hnodup : (pending.map (·.name)).Nodup)
    (hnames : ∀ e ∈ pending, e.name ∈ names)
    (hgiven : ∀ name ∈ names, name ∉ pending.map (·.name) → valuesOf name members = [])
    (h : ∀ e ∈ pending, e.StatedBy r (valuesOf e.name members)) :
    Members names r pending members := by
  induction members generalizing pending with
  | nil => exact .nil h
  | cons member rest ih =>
    obtain ⟨name, v⟩ := member
    obtain ⟨hv, hrest⟩ := (Bool.and_eq_true _ _).mp hwell
    have hother {other : String} (hne : name ≠ other) :
        valuesOf other ((name, v) :: rest) = valuesOf other rest :=
      Json.valuesOf_cons_of_ne hne v rest
    by_cases hname : name ∈ names
    · have hpending : name ∈ pending.map (·.name) := by
        by_contra hnot
        simpa [Json.valuesOf_cons_self] using hgiven name hname hnot
      obtain ⟨e, he, rfl⟩ := List.mem_map.mp hpending
      obtain ⟨before, after, rfl⟩ := List.append_of_mem he
      rw [List.map_append, List.map_cons, List.nodup_middle, ← List.map_append,
        List.nodup_cons] at hnodup
      have hstated := h e he
      rw [Json.valuesOf_cons_self, Entry.statedBy_cons_iff] at hstated
      have hsub : ∀ e' ∈ before ++ after, e' ∈ before ++ e :: after :=
        ((List.sublist_cons_self e after).append_left before).subset
      apply Members.entry hstated.1
      apply ih hrest hnodup.2 fun e' he' ↦ hnames e' (hsub e' he')
      · intro other hmem hnot
        by_cases hsame : e.name = other
        · rw [← hsame, hstated.2]
        · rw [← hother hsame]
          apply hgiven other hmem
          simpa [Ne.symm hsame] using hnot
      · intro e' he'
        have hne : e.name ≠ e'.name := fun hsame ↦
          hnodup.1 (hsame ▸ List.mem_map_of_mem he')
        rw [← hother hne]
        exact h e' (hsub e' he')
    · have hne {other : String} (hmem : other ∈ names) : name ≠ other := fun hsame ↦
        hname (hsame ▸ hmem)
      apply Members.other hname hv
      apply ih hrest hnodup hnames
      · intro other hmem hnot
        rw [← hother (hne hmem)]
        exact hgiven other hmem hnot
      · intro e he
        rw [← hother (hne (hnames e he))]
        exact h e he

private theorem items_nil_iff : Items r pending [] ↔ ∀ e ∈ pending, e.Omits r := by
  constructor
  · intro h
    cases h with
    | nil homits => exact homits
  · exact .nil

private theorem items_cons_iff {e : Entry ρ} {v : Json} {rest : List Json} :
    Items r (e :: pending) (v :: rest) ↔ e.Writes r v ∧ Items r pending rest := by
  constructor
  · intro h
    cases h with
    | entry hv hrest => exact ⟨hv, hrest⟩
  · intro h
    exact .entry h.1 h.2

private theorem items_iff {items : List Json} :
    Items r entries items ↔ States entries r (.array items) := by
  induction items generalizing entries with
  | nil =>
    simp only [items_nil_iff, States, List.length_nil, Nat.zero_le, true_and, List.getElem?_nil,
      Option.toList_none, Entry.StatedBy, List.mem_iff_getElem?, forall_exists_index]
    exact forall_comm
  | cons v rest ih =>
    cases entries with
    | nil =>
      constructor
      · intro h
        cases h
      · intro h
        cases h.1
    | cons e entries =>
      have hsplit : (∀ (k : Nat) (e' : Entry ρ), (e :: entries)[k]? = some e' →
          e'.StatedBy r (v :: rest)[k]?.toList) ↔ e.Writes r v ∧
          ∀ (k : Nat) (e' : Entry ρ), entries[k]? = some e' → e'.StatedBy r rest[k]?.toList := by
        rw [← Nat.and_forall_add_one]
        simp [Entry.StatedBy]
      rw [items_cons_iff, ih, States, States, hsplit, List.length_cons, List.length_cons,
        Nat.succ_le_succ_iff]
      exact and_left_comm

private theorem form_of_states (hnodup : (entries.map (·.name)).Nodup) {v : Json}
    (hv : v.isWellFormed) (h : States entries r v) : Form entries r v := by
  cases v with
  | object members =>
    apply Form.object
    exact members_of_stated hv hnodup (fun e ↦ List.mem_map_of_mem)
      (fun name hmem hnot ↦ absurd hmem hnot) h
  | array items => exact .array (items_iff.mpr h)
  | _ => exact h.elim

/-! ### From the written form to what is stated -/

private theorem Members.valuesOf_eq_nil {names : List String} {members : List (String × Json)}
    (h : Members names r pending members) {name : String} (hmem : name ∈ names)
    (hnot : name ∉ pending.map (·.name)) : valuesOf name members = [] := by
  induction h with
  | nil => rfl
  | @entry before after e v rest _ _ ih =>
    have hne : e.name ≠ name := fun h ↦ hnot (by simp [h])
    rw [Json.valuesOf_cons_of_ne hne]
    apply ih
    simp only [List.map_append, List.map_cons, List.mem_append, List.mem_cons, not_or] at hnot ⊢
    exact ⟨hnot.1, hnot.2.2⟩
  | @other pending other v rest hname _ _ ih =>
    have hne : other ≠ name := fun h ↦ hname (h ▸ hmem)
    rw [Json.valuesOf_cons_of_ne hne]
    exact ih hnot

private theorem Members.stated {names : List String} {members : List (String × Json)}
    (h : Members names r pending members) (hnodup : (pending.map (·.name)).Nodup)
    (hnames : ∀ e ∈ pending, e.name ∈ names) :
    ∀ e ∈ pending, e.StatedBy r (valuesOf e.name members) := by
  induction h with
  | nil homits => exact homits
  | @entry before after e v rest hv hrest ih =>
    rw [List.map_append, List.map_cons, List.nodup_middle, ← List.map_append,
      List.nodup_cons] at hnodup
    have hmiddle (e' : Entry ρ) : e' ∈ before ++ e :: after ↔ e' = e ∨ e' ∈ before ++ after := by
      simp only [List.mem_append, List.mem_cons]
      exact or_left_comm
    intro e' he'
    obtain rfl | hmem := (hmiddle e').mp he'
    · rw [Json.valuesOf_cons_self, Entry.statedBy_cons_iff]
      exact ⟨hv, hrest.valuesOf_eq_nil (hnames e' he') hnodup.1⟩
    · have hne : e.name ≠ e'.name := fun h ↦ hnodup.1 (h ▸ List.mem_map_of_mem hmem)
      rw [Json.valuesOf_cons_of_ne hne]
      exact ih hnodup.2 (fun e hmem ↦ hnames e ((hmiddle e).mpr (.inr hmem))) e' hmem
  | @other pending name v rest hname _ _ ih =>
    intro e he
    have hne : name ≠ e.name := fun h ↦ hname (h ▸ hnames e he)
    rw [Json.valuesOf_cons_of_ne hne]
    exact ih hnodup hnames e he

/-- A written form of a record states it. -/
theorem states_of_form (hnodup : (entries.map (·.name)).Nodup) {v : Json} (h : Form entries r v) :
    States entries r v := by
  cases h with
  | object h => exact h.stated hnodup fun e he ↦ List.mem_map_of_mem he
  | array h => exact items_iff.mp h

/-! ### From a decoded record to what is stated -/

section Gives

variable [Inverts m]

/-- The field gives the entry of a record what is written of it, and nothing to other entries. An
entry that the field does not require has a default. -/
structure Entry.GivenBy (entries : List (Entry ρ)) (e : Entry ρ) (f : Field m ρ) : Prop where
  name_eq : f.name = e.name
  exists_default : f.isRequired = false → ∃ a, e.default? = some a
  gives : ∀ {v update}, Gives (f.read v) update → ∃ a, e.writing.Writes a v ∧
    ∀ draft, e.get (update draft) = a ∧
      ∀ e' ∈ entries, e'.name = e.name ∨ e'.get (update draft) = e'.get draft

/-- The decoder comes to a value from nothing but its written forms. -/
def Writing.IsReadBy (w : Writing α) (decode : Json → m α) : Prop :=
  ∀ {a v}, Gives (decode v) a → w.Writes a v

private theorem Entry.givenBy_of_put [LawfulMonad m] {name : String} {w : Writing α} {get : ρ → α}
    {default? : Option α} {decode : Json → m α} {put : α → ρ → ρ} {isRequired : Bool}
    (hreads : w.IsReadBy decode) (hdefault : isRequired = false → ∃ a, default? = some a)
    (hget : ∀ a r, get (put a r) = a)
    (hframe : ∀ e' ∈ entries, e'.name = name ∨ ∀ a r, e'.get (put a r) = e'.get r) :
    Entry.GivenBy entries ⟨name, w, get, default?⟩
      ⟨name, fun v ↦ put <$> decode v, isRequired⟩ where
  name_eq := rfl
  exists_default := hdefault
  gives h := by
    obtain ⟨a, ha, rfl⟩ := exists_of_gives_map h
    exact ⟨a, hreads ha, fun draft ↦ ⟨hget a draft, fun e' he' ↦
      (hframe e' he').imp id fun hkeep ↦ hkeep a draft⟩⟩

section Put

variable [LawfulMonad m] {name : String} {w : Writing α} {get : ρ → α} {decode : Json → m α}
  {put : α → ρ → ρ} (hreads : w.IsReadBy decode) (hget : ∀ a r, get (put a r) = a)
  (hframe : ∀ e' ∈ entries, e'.name = name ∨ ∀ a r, e'.get (put a r) = e'.get r)
include hreads hget hframe

/-- A field that must be given, of an entry that has no default. -/
theorem Entry.givenBy_required :
    Entry.GivenBy entries ⟨name, w, get, none⟩ (Field.required name decode put) :=
  givenBy_of_put hreads (fun h ↦ Bool.noConfusion h) hget hframe

/-- A field that may be left out, of an entry that has a default. -/
theorem Entry.givenBy_defaulted {a : α} :
    Entry.GivenBy entries ⟨name, w, get, some a⟩ (Field.defaulted name decode put) :=
  givenBy_of_put hreads (fun _ ↦ ⟨a, rfl⟩) hget hframe

end Put

end Gives

/-- Members of an object complete a draft to a record: they state the entries whose names have not
been given, and there are no more values for those that have. -/
structure Completes (entries : List (Entry ρ)) (given : List String) (draft r : ρ)
    (members : List (String × Json)) : Prop where
  isWellFormed : (Json.object members).isWellFormed
  none_of_given : ∀ e ∈ entries, e.name ∈ given → valuesOf e.name members = []
  get_of_given : ∀ e ∈ entries, e.name ∈ given → e.get r = e.get draft
  stated : ∀ e ∈ entries, e.name ∉ given → e.StatedBy r (valuesOf e.name members)

namespace Completes

variable {given : List String} {draft draft' : ρ} {rest : List (String × Json)} {v : Json}

private theorem skip (h : Completes entries given draft r rest) {name : String}
    (hname : ∀ e ∈ entries, name ≠ e.name) (hv : v.isWellFormed) :
    Completes entries given draft r ((name, v) :: rest) where
  isWellFormed := (Bool.and_eq_true _ _).mpr ⟨hv, h.isWellFormed⟩
  none_of_given e he hmem := by
    rw [Json.valuesOf_cons_of_ne (hname e he)]
    exact h.none_of_given e he hmem
  get_of_given := h.get_of_given
  stated e he hnot := by
    rw [Json.valuesOf_cons_of_ne (hname e he)]
    exact h.stated e he hnot

private theorem take {e : Entry ρ} (h : Completes entries (e.name :: given) draft' r rest)
    (hnodup : (entries.map (·.name)).Nodup) (he : e ∈ entries) (hnew : e.name ∉ given)
    (hv : e.Writes draft' v)
    (hkeep : ∀ e' ∈ entries, e'.name = e.name ∨ e'.get draft' = e'.get draft) :
    Completes entries given draft r ((e.name, v) :: rest) where
  isWellFormed := (Bool.and_eq_true _ _).mpr ⟨e.writing.isWellFormed hv, h.isWellFormed⟩
  none_of_given e' he' hmem := by
    have hne : e.name ≠ e'.name := fun hn ↦ hnew (hn ▸ hmem)
    rw [Json.valuesOf_cons_of_ne hne]
    exact h.none_of_given e' he' (List.mem_cons_of_mem _ hmem)
  get_of_given e' he' hmem := by
    have hne : e'.name ≠ e.name := fun hn ↦ hnew (hn ▸ hmem)
    rw [h.get_of_given e' he' (List.mem_cons_of_mem _ hmem)]
    exact (hkeep e' he').resolve_left hne
  stated e' he' hnot := by
    by_cases hn : e'.name = e.name
    · obtain rfl : e' = e := List.inj_on_of_nodup_map hnodup he' he hn
      have hget : e'.get r = e'.get draft' := h.get_of_given e' he' List.mem_cons_self
      rw [Json.valuesOf_cons_self, Entry.statedBy_cons_iff, Entry.Writes, hget]
      exact ⟨hv, h.none_of_given e' he' List.mem_cons_self⟩
    · rw [Json.valuesOf_cons_of_ne (Ne.symm hn)]
      exact h.stated e' he' (by simp [hn, hnot])

end Completes

section Gives

variable [Inverts m] {record : Record m ρ} {draft : ρ}

/-- The fields of a record give it nothing but what is written of these entries. -/
structure Record.IsGivenBy (record : Record m ρ) (entries : List (Entry ρ)) : Prop where
  fields : List.Forall₂ (Entry.GivenBy entries) entries record.fields
  nodup : (entries.map (·.name)).Nodup
  blank : ∀ e ∈ entries, ∀ a, e.default? = some a → e.get record.blank = a

namespace Record.IsGivenBy

private theorem omits (h : record.IsGivenBy entries) {e : Entry ρ} {f : Field m ρ}
    (he : e ∈ entries) (hread : e.GivenBy entries f) (hoptional : f.isRequired = false)
    (hblank : e.get draft = e.get record.blank) : e.Omits draft := by
  obtain ⟨a, ha⟩ := hread.exists_default hoptional
  show e.default? = some (e.get draft)
  rw [hblank, h.blank e he a ha, ha]

private theorem completes_of_gives (h : record.IsGivenBy entries) {given : List String}
    {members : List (String × Json)}
    (hdraft : ∀ e ∈ entries, e.name ∉ given → e.get draft = e.get record.blank)
    (hr : Gives (record.ofMembers given draft members) r) :
    Completes entries given draft r members := by
  induction members generalizing given draft with
  | nil =>
    rw [ofMembers] at hr
    cases hmissing : record.missing? given with
    | some f =>
      rw [hmissing] at hr
      exact absurd hr Inverts.throw
    | none =>
      rw [hmissing] at hr
      obtain rfl : draft = r := Inverts.pure hr
      refine ⟨rfl, fun _ _ _ ↦ rfl, fun _ _ _ ↦ rfl, fun e he hnot ↦ ?_⟩
      obtain ⟨f, hf, hread⟩ := exists_mem_of_forall₂ h.fields.flip he
      rw [missing?, List.find?_eq_none] at hmissing
      have hoptional : f.isRequired = false := by
        simpa [hread.name_eq, hnot] using hmissing f hf
      exact h.omits he hread hoptional (hdraft e he hnot)
  | cons member rest ih =>
    obtain ⟨name, v⟩ := member
    rw [ofMembers] at hr
    cases hfield : record.field? name with
    | none =>
      rw [hfield] at hr
      dsimp only at hr
      have hname : ∀ e ∈ entries, name ≠ e.name := by
        rintro e he rfl
        obtain ⟨f, hf, hread⟩ := exists_mem_of_forall₂ h.fields.flip he
        rw [field?, List.find?_eq_none] at hfield
        exact hfield f hf (beq_iff_eq.mpr hread.name_eq)
      by_cases hv : v.isWellFormed
      · rw [if_pos hv] at hr
        exact (ih hdraft hr).skip hname hv
      · rw [if_neg hv] at hr
        exact absurd hr Inverts.throw
    | some f =>
      rw [hfield] at hr
      dsimp only at hr
      obtain ⟨e, he, hread⟩ := exists_mem_of_forall₂ h.fields (List.mem_of_find?_eq_some hfield)
      obtain rfl : e.name = name := hread.name_eq.symm.trans
        (beq_iff_eq.mp (List.find?_some (p := fun f : Field m ρ ↦ f.name == name) hfield))
      by_cases hnew : e.name ∈ given
      · rw [if_pos (List.contains_iff_mem.mpr hnew)] at hr
        exact absurd hr Inverts.throw
      · rw [if_neg (List.contains_iff_mem.not.mpr hnew)] at hr
        obtain ⟨update, hupdate, hr⟩ := Inverts.bind hr
        obtain ⟨a, ha, hput⟩ := hread.gives hupdate
        obtain ⟨hget, hkeep⟩ := hput draft
        have hdraft' : ∀ e' ∈ entries, e'.name ∉ e.name :: given →
            e'.get (update draft) = e'.get record.blank := by
          intro e' he' hnot
          rw [List.mem_cons, not_or] at hnot
          rw [(hkeep e' he').resolve_left hnot.1, hdraft e' he' hnot.2]
        have hv : e.Writes (update draft) v := by rwa [Entry.Writes, hget]
        exact (ih hdraft' hr).take h.nodup he hnew hv hkeep

-- By induction on the fields that are left. The entries of those before keep their values.
private theorem items_of_gives (h : record.IsGivenBy entries) {fields : List (Field m ρ)}
    (hfields : List.Forall₂ (Entry.GivenBy entries) pending fields)
    (hsub : pending.Sublist entries) {index : Nat} {items : List Json}
    (hdraft : ∀ e ∈ pending, e.get draft = e.get record.blank)
    (hr : Gives (record.ofItems index draft fields items) r) :
    Items r pending items ∧
      ∀ e ∈ entries, e.name ∉ pending.map (·.name) → e.get r = e.get draft := by
  induction hfields generalizing index items draft with
  | nil =>
    cases items with
    | nil =>
      obtain rfl : draft = r := Inverts.pure hr
      exact ⟨items_nil_iff.mpr (by simp), fun _ _ _ ↦ rfl⟩
    | cons _ _ => exact absurd hr Inverts.throw
  | @cons e f pending fields hread _ ih =>
    have he : e ∈ entries := hsub.subset List.mem_cons_self
    have hrest : pending.Sublist entries := (List.sublist_cons_self e pending).trans hsub
    have hnew : e.name ∉ pending.map (·.name) :=
      (List.nodup_cons.mp (h.nodup.sublist (hsub.map (·.name)))).1
    rw [List.forall_mem_cons] at hdraft
    cases items with
    | nil =>
      rw [Record.ofItems] at hr
      cases hrequired : f.isRequired with
      | true =>
        rw [hrequired] at hr
        exact absurd hr Inverts.throw
      | false =>
        rw [hrequired] at hr
        obtain ⟨hitems, hget⟩ := ih hrest hdraft.2 hr
        have homits : e.Omits r := h.omits he hread hrequired ((hget e he hnew).trans hdraft.1)
        have hall : ∀ e' ∈ e :: pending, e'.Omits r :=
          List.forall_mem_cons.mpr ⟨homits, items_nil_iff.mp hitems⟩
        exact ⟨items_nil_iff.mpr hall, fun e' he' hnot ↦
          hget e' he' fun hmem ↦ hnot (List.mem_cons_of_mem _ hmem)⟩
    | cons v rest =>
      obtain ⟨update, hupdate, hr⟩ := Inverts.bind hr
      obtain ⟨a, ha, hput⟩ := hread.gives hupdate
      obtain ⟨hput, hkeep⟩ := hput draft
      have hdraft' : ∀ e' ∈ pending, e'.get (update draft) = e'.get record.blank := by
        intro e' he'
        have hne : e'.name ≠ e.name := fun hn ↦ hnew (hn ▸ List.mem_map_of_mem he')
        rw [(hkeep e' (hrest.subset he')).resolve_left hne, hdraft.2 e' he']
      obtain ⟨hitems, hget⟩ := ih hrest hdraft' hr
      have hwrites : e.Writes r v := by rwa [Entry.Writes, hget e he hnew, hput]
      refine ⟨items_cons_iff.mpr ⟨hwrites, hitems⟩, fun e' he' hnot ↦ ?_⟩
      rw [List.map_cons, List.mem_cons, not_or] at hnot
      rw [hget e' he' hnot.2, (hkeep e' he').resolve_left hnot.1]

/-- A record that is decoded from a value is what the value states, which is well formed. -/
theorem states_of_gives (h : record.IsGivenBy entries) {v : Json}
    (hr : Gives (record.decode v) r) : v.isWellFormed ∧ States entries r v := by
  cases v with
  | object members =>
    have hc : Completes entries [] record.blank r members := h.completes_of_gives (by simp) hr
    exact ⟨hc.isWellFormed, fun e he ↦ hc.stated e he (by simp)⟩
  | array items =>
    have hitems : Items r entries items :=
      (h.items_of_gives h.fields (List.Sublist.refl _) (by simp) hr).1
    exact ⟨hitems.isWellFormed, items_iff.mp hitems⟩
  | torn members rest => exact absurd hr Record.not_gives_torn
  | _ => exact absurd hr Inverts.throw

/-- A record is decoded from nothing but its written forms. -/
theorem isReadBy (h : record.IsGivenBy entries) (plain : ρ → ρ) :
    (Writing.record entries plain).IsReadBy record.decode := by
  intro r v hr
  obtain ⟨hv, hstates⟩ := h.states_of_gives hr
  exact form_of_states h.nodup hv hstates

end Record.IsGivenBy

end Gives

/-- Where all of a record is written, it is decoded from just the values that are well formed and
state it. -/
theorem Record.Implements.decode_eq_ok_iff {record : Record (Except DecodeError) ρ}
    (h : record.Implements entries id) (hgiven : record.IsGivenBy entries) {v : Json} :
    record.decode v = .ok r ↔ v.isWellFormed ∧ States entries r v := by
  constructor
  · exact hgiven.states_of_gives
  · rintro ⟨hv, hstates⟩
    obtain ⟨b, hb, rfl⟩ := h.reads r v (form_of_states hgiven.nodup hv hstates)
    exact hb

/-! ### Texts -/

/-- The values are written without arrays and objects, so that none is nested too deeply. -/
def Writing.IsFlat (w : Writing α) : Prop :=
  ∀ (n : Nat) (a : α) (v : Json), w.Writes a (v.clip n) ↔ w.Writes a v

private theorem Entry.statedBy_clip {e : Entry ρ} (h : e.writing.IsFlat) (n : Nat)
    (values : List Json) :
    e.StatedBy r (values.map (Json.clip n)) ↔ e.StatedBy r values := by
  cases values with
  | nil => rfl
  | cons v rest =>
    rw [List.map_cons, statedBy_cons_iff, statedBy_cons_iff, Writes, h, List.map_eq_nil_iff]
    rfl

private theorem states_clip (h : ∀ e ∈ entries, e.writing.IsFlat) {n : Nat} (hn : 0 < n)
    (v : Json) :
    States entries r (v.clip n) ↔ States entries r v := by
  obtain ⟨n, rfl⟩ : ∃ k, n = k + 1 := ⟨n - 1, by omega⟩
  cases v with
  | object members =>
    have hvalues (name : String) : valuesOf name (Json.clipMembers n members) =
        (valuesOf name members).map (Json.clip n) := by
      rw [Json.clipMembers_eq_map]
      simp [valuesOf, List.filter_map, Function.comp_def]
    simp only [Json.clip, States, hvalues]
    exact forall₂_congr fun e he ↦ Entry.statedBy_clip (h e he) n _
  | array items =>
    have hitem (k : Nat) : (Json.clipItems n items)[k]?.toList =
        items[k]?.toList.map (Json.clip n) := by
      rw [Json.clipItems_eq_map, List.getElem?_map, Option.toList_map]
    have hlength : (Json.clipItems n items).length = items.length := by
      rw [Json.clipItems_eq_map, List.length_map]
    simp only [Json.clip, States, hitem, hlength]
    apply and_congr_right
    intro _
    exact forall₃_congr fun k e he ↦ Entry.statedBy_clip (h e (List.mem_of_getElem? he)) n _
  | _ => rfl

/-- A document is decoded when its value is and it is well formed. -/
theorem document_eq_ok_iff {decode : Json → Except DecodeError α} {d : Json.Document} {a : α} :
    document decode d = .ok a ↔ d.isWellFormed ∧ decode d.root = .ok a := by
  cases hroot : decode d.root with
  | error e =>
    rw [document_of_error hroot]
    simp
  | ok b =>
    rw [document_of_ok hroot]
    cases d.isWellFormed <;> simp

/-- A record that is flat is decoded from just the texts that are well formed and whose value states
it. What a text holds besides may be nested at any depth. -/
theorem Record.Implements.text_eq_ok_iff {record : Record (Except DecodeError) ρ}
    (h : record.Implements entries id) (hgiven : record.IsGivenBy entries)
    (hflat : ∀ e ∈ entries, e.writing.IsFlat) (s : String) :
    text record.decode s = .ok r ↔
      (Json.Document.ofText s).isWellFormed ∧ States entries r (Json.Document.ofText s).root := by
  have hroot : (Json.Document.ofText s).isWellFormed →
      (Json.Document.ofText s).root.isWellFormed := fun hd ↦ ((Bool.and_eq_true _ _).mp hd).2
  have hlimit : 0 < depthLimit := by decide
  rw [text, document_eq_ok_iff, h.decode_eq_ok_iff hgiven, Json.Document.isWellFormed_clip,
    Json.Document.clip, Json.isWellFormed_clip, states_clip hflat hlimit, ← and_assoc]
  exact and_congr_left fun _ ↦ and_iff_left_of_imp hroot

/-! ### Scalars -/

/-- An entry that may be left out and whose values are written in one way is stated by no value or
by that of what the record has. -/
theorem Entry.statedBy_defaulted_iff {name : String} {w : Writing α} {get : ρ → α} {default : α}
    {form : α → Json} (hform : ∀ a v, w.Writes a v ↔ v = form a) {values : List Json} :
    (Entry.defaulted name w get default).StatedBy r values ↔
      ∃ given : Option α, values = (given.map form).toList ∧ get r = given.getD default := by
  cases values with
  | nil =>
    constructor
    · intro h
      exact ⟨none, rfl, (Option.some.inj h).symm⟩
    · rintro ⟨_ | a, hvalues, hget⟩
      · exact congrArg some hget.symm
      · cases hvalues
  | cons v rest =>
    rw [Entry.statedBy_cons_iff]
    constructor
    · rintro ⟨hv, rfl⟩
      obtain rfl := (hform _ _).mp hv
      exact ⟨some (get r), rfl, rfl⟩
    · rintro ⟨_ | a, hvalues, hget⟩
      · cases hvalues
      · obtain ⟨rfl, rfl⟩ := List.cons.inj hvalues
        exact ⟨(hform _ _).mpr (congrArg form hget.symm), rfl⟩

/-- Strings are not clipped. -/
theorem Writing.isFlat_string : Writing.string.IsFlat := by
  intro n s v
  show v.clip n = .string s ↔ v = .string s
  cases v <;> cases n <;> simp [Json.clip, Json.tooDeep]

/-- Booleans are not clipped. -/
theorem Writing.isFlat_bool : Writing.bool.IsFlat := by
  intro n b v
  show v.clip n = .bool b ↔ v = .bool b
  cases v <;> cases n <;> simp [Json.clip, Json.tooDeep]

/-- A string comes from a string. -/
theorem isReadBy_string : Writing.string.IsReadBy string := by
  intro s v h
  cases v with
  | string t => exact congrArg Json.string (Except.ok.inj h)
  | _ => cases h

/-- A boolean comes from a boolean. -/
theorem isReadBy_bool : Writing.bool.IsReadBy bool := by
  intro b v h
  cases v with
  | bool c => exact congrArg Json.bool (Except.ok.inj h)
  | _ => cases h

private theorem eq_number_of_integer {low high n : Int} {title : String} {v : Json}
    (h : integer low high title v = .ok n) : v = .number (.int n) ∧ low ≤ n ∧ n ≤ high := by
  rcases v with _ | _ | (k | _) | _ | _ | _ | _
  case number.int =>
    rw [integer] at h
    by_cases hk : low ≤ k ∧ k ≤ high
    · rw [if_pos hk] at h
      obtain rfl := Except.ok.inj h
      exact ⟨rfl, hk⟩
    · rw [if_neg hk] at h
      cases h
  all_goals cases h

/-- A signed integer of 32 bits comes from an integer. -/
theorem isReadBy_int32 : Writing.int32.IsReadBy int32 := by
  intro n v h
  show v = .number (.int n.toInt)
  obtain ⟨k, hk, rfl⟩ := exists_of_gives_map h
  obtain ⟨rfl, hlow, hhigh⟩ := eq_number_of_integer hk
  have hlow : -2147483648 ≤ k := hlow
  have hhigh : k ≤ 2147483647 := hhigh
  rw [Int32.toInt_ofInt_of_le (by omega) (by omega)]

/-- An unsigned integer of 16 bits comes from an integer. -/
theorem isReadBy_uint16 : Writing.uint16.IsReadBy uint16 := by
  intro n v h
  show v = .number (.int n.toNat)
  obtain ⟨k, hk, rfl⟩ := exists_of_gives_map h
  obtain ⟨rfl, hlow, hhigh⟩ := eq_number_of_integer hk
  have hhigh : k ≤ 65535 := hhigh
  have hsize : k.toNat < UInt16.size := by
    show k.toNat < 65536
    omega
  rw [UInt16.toNat_ofNat_of_lt' hsize, Int.toNat_of_nonneg hlow]

section Gives

variable [Inverts m] {w : Writing α} {decode : Json → m α}

/-- A decoder that hands out nothing reads no more among those that do. -/
theorem isReadBy_ofExcept {decode : Json → Except DecodeError α} (h : w.IsReadBy decode) :
    w.IsReadBy fun v ↦ DecodeM.ofExcept (decode v) :=
  fun hv ↦ h (eq_ok_of_gives_ofExcept hv)

/-- A list comes from the array of its items. -/
theorem isReadBy_list [LawfulMonad m] (h : w.IsReadBy decode) :
    w.list.IsReadBy (list decode) := by
  intro l v hl
  cases v with
  | array items => exact ⟨items, rfl, (forall₂_of_gives_mapM hl).imp fun _ _ ↦ h⟩
  | _ => exact absurd hl Inverts.throw

/-- A value that there may be comes from null or from what it is written as. -/
theorem isReadBy_optional [LawfulMonad m] (h : w.IsReadBy decode) :
    w.optional.IsReadBy (optional decode) := by
  intro o v ho
  cases v with
  | null =>
    obtain rfl := Inverts.pure ho
    rfl
  | _ =>
    obtain ⟨a, ha, rfl⟩ := exists_of_gives_map ho
    exact h ha

end Gives

end Decode

end Cil
