import Cil.Decode.Record
import Cil.Proofs.Decode.Yields
import Cil.Proofs.Json.Depth
import Mathlib.Data.List.Forall2
import Mathlib.Data.List.Nodup

/-!
# Written forms

What the written forms of a value are is said here without a decoder: for a record by the list of
its entries, each with a name, the written forms of its value and the default with which it may be
left out. A decoder reads a type when it comes from every written form of a value to that value,
up to what is not written. Main statement: a record whose fields read its entries reads all its
written forms, `Record.Implements.reads`.
-/

namespace Cil.Decode

/-- The written forms of the values of a type. -/
structure Writing (α : Type) where
  /-- The value is written like this. -/
  Writes : α → Json → Prop
  /-- The value without what is not written of it. -/
  plain : α → α
  isWellFormed : ∀ {a v}, Writes a v → v.isWellFormed

variable {m : Type → Type} [Monad m] [MonadExceptOf DecodeError m] {α ρ : Type}

/-- The decoder comes from every written form of a value to that value, up to what is not
written. -/
def Writing.Reads [Succeeds m] (w : Writing α) (decode : Json → m α) : Prop :=
  ∀ a v, w.Writes a v → Yields (decode v) fun b ↦ w.plain b = w.plain a

/-! ### Records -/

/-- A member of a record as it is written. -/
structure Entry (ρ : Type) where
  name : String
  {α : Type}
  writing : Writing α
  get : ρ → α
  /-- The value with which the member may be left out. -/
  default? : Option α

namespace Entry

/-- A member that is always written. -/
@[simp] def required (name : String) (writing : Writing α) (get : ρ → α) : Entry ρ :=
  { name, writing, get, default? := none }

/-- A member that may be left out when it has its default. -/
@[simp] def defaulted (name : String) (writing : Writing α) (get : ρ → α) (default : α) : Entry ρ :=
  { name, writing, get, default? := some default }

/-- The member of a record is written like this. -/
def Writes (e : Entry ρ) (r : ρ) (v : Json) : Prop := e.writing.Writes (e.get r) v

/-- The member of a record may be left out. -/
def Omits (e : Entry ρ) (r : ρ) : Prop := e.default? = some (e.get r)

/-- Two records have the same member, up to what is not written. -/
def Agrees (e : Entry ρ) (a b : ρ) : Prop := e.writing.plain (e.get a) = e.writing.plain (e.get b)

end Entry

/-- The members of an object that gives entries of a record, in any order and each at most once,
and otherwise has members of other names. What is not given is left out. -/
inductive Members (names : List String) (r : ρ) : List (Entry ρ) → List (String × Json) → Prop
  | nil {pending : List (Entry ρ)} (h : ∀ e ∈ pending, e.Omits r) : Members names r pending []
  | entry {before after : List (Entry ρ)} {e : Entry ρ} {v : Json} {rest : List (String × Json)}
    (hv : e.Writes r v) (hrest : Members names r (before ++ after) rest) :
    Members names r (before ++ e :: after) ((e.name, v) :: rest)
  | other {pending : List (Entry ρ)} {name : String} {v : Json} {rest : List (String × Json)}
    (hname : name ∉ names) (hv : v.isWellFormed) (hrest : Members names r pending rest) :
    Members names r pending ((name, v) :: rest)

/-- The items of an array that gives the first entries of a record. What is not given is left
out. -/
inductive Items (r : ρ) : List (Entry ρ) → List Json → Prop
  | nil {pending : List (Entry ρ)} (h : ∀ e ∈ pending, e.Omits r) : Items r pending []
  | entry {e : Entry ρ} {pending : List (Entry ρ)} {v : Json} {rest : List Json}
    (hv : e.Writes r v) (hrest : Items r pending rest) : Items r (e :: pending) (v :: rest)

/-- The written forms of a record. -/
inductive Form (entries : List (Entry ρ)) (r : ρ) : Json → Prop
  | object {members : List (String × Json)}
    (h : Members (entries.map (·.name)) r entries members) : Form entries r (.object members)
  | array {items : List Json} (h : Items r entries items) : Form entries r (.array items)

/-- The entry at an index may be given next. -/
theorem Members.given {names : List String} {r : ρ} {pending : List (Entry ρ)}
    {rest : List (String × Json)} {v : Json} (index : Nat) (h : index < pending.length)
    (hv : (pending.get ⟨index, h⟩).Writes r v)
    (hrest : Members names r (pending.eraseIdx index) rest) :
    Members names r pending (((pending.get ⟨index, h⟩).name, v) :: rest) := by
  have hsplit : pending.take index ++ pending.get ⟨index, h⟩ :: pending.drop (index + 1) =
      pending := by
    rw [List.get_eq_getElem, ← List.drop_eq_getElem_cons h, List.take_append_drop]
  rw [List.eraseIdx_eq_take_drop_succ] at hrest
  have hgiven := Members.entry hv hrest
  rwa [hsplit] at hgiven

private theorem Members.isWellFormed {names : List String} {r : ρ} {pending : List (Entry ρ)}
    {members : List (String × Json)} (h : Members names r pending members) :
    (Json.object members).isWellFormed := by
  induction h with
  | nil => rfl
  | @entry _ _ e _ _ hv _ ih =>
    exact (Bool.and_eq_true _ _).mpr ⟨e.writing.isWellFormed hv, ih⟩
  | other _ hv _ ih => exact (Bool.and_eq_true _ _).mpr ⟨hv, ih⟩

/-- Items of an array are well formed. -/
theorem Items.isWellFormed {r : ρ} {pending : List (Entry ρ)} {items : List Json}
    (h : Items r pending items) : (Json.array items).isWellFormed := by
  induction h with
  | nil => rfl
  | @entry e _ _ _ hv _ ih => exact (Bool.and_eq_true _ _).mpr ⟨e.writing.isWellFormed hv, ih⟩

/-- A record of these entries. -/
def Writing.record (entries : List (Entry ρ)) (plain : ρ → ρ) : Writing ρ where
  Writes := Form entries
  plain
  isWellFormed h := by
    cases h with
    | object h => exact h.isWellFormed
    | array h => exact h.isWellFormed

/-! ### Reading records -/

/-- Of two lists that are related item by item, each item of the second has one of the first. -/
theorem exists_mem_of_forall₂ {β γ : Type _} {R : β → γ → Prop} {l : List β} {l' : List γ}
    (h : List.Forall₂ R l l') {c : γ} (hc : c ∈ l') : ∃ b ∈ l, R b c := by
  obtain ⟨index, hindex, rfl⟩ := List.mem_iff_getElem.mp hc
  have hlength : index < l.length := h.length_eq ▸ hindex
  exact ⟨l[index], List.getElem_mem hlength, h.get hlength hindex⟩

section Reads

variable [Succeeds m] {entries pending before after : List (Entry ρ)} {e : Entry ρ}
  {r draft blank : ρ}

/-- The field reads the entry, and changes nothing else of a record. -/
structure Entry.ReadBy (entries : List (Entry ρ)) (e : Entry ρ) (f : Field m ρ) : Prop where
  name_eq : f.name = e.name
  default?_eq_none : f.isRequired → e.default? = none
  read : ∀ {r v}, e.Writes r v → Yields (f.read v) fun update ↦ ∀ draft,
    e.Agrees (update draft) r ∧ ∀ e' ∈ entries, e'.name = e.name ∨ e'.Agrees (update draft) draft

/-- A field that puts what is read into the place that the entry gets. -/
theorem Entry.readBy_of_put [LawfulMonad m] {name : String} {w : Writing α} {get : ρ → α}
    {default? : Option α} {decode : Json → m α} {put : α → ρ → ρ} {isRequired : Bool}
    (hreads : w.Reads decode) (hdefault : isRequired → default? = none)
    (hget : ∀ a r, get (put a r) = a)
    (hframe : ∀ e' ∈ entries, e'.name = name ∨ ∀ a r, e'.get (put a r) = e'.get r) :
    Entry.ReadBy entries ⟨name, w, get, default?⟩ ⟨name, fun v ↦ put <$> decode v, isRequired⟩ where
  name_eq := rfl
  default?_eq_none := hdefault
  read {r v} hv := by
    refine yields_map (hreads (get r) v hv) fun a ha draft ↦ ⟨?_, fun e' he' ↦ ?_⟩
    · change w.plain (get (put a draft)) = w.plain (get r)
      rw [hget, ha]
    · exact (hframe e' he').imp id fun h ↦ congrArg e'.writing.plain (h a draft)

/-- The fields of a record read these entries, and together they make up the record. -/
structure Record.Implements (record : Record m ρ) (entries : List (Entry ρ)) (plain : ρ → ρ) :
    Prop where
  fields : List.Forall₂ (Entry.ReadBy entries) entries record.fields
  nodup : (entries.map (·.name)).Nodup
  blank : ∀ e ∈ entries, ∀ a, e.default? = some a → e.get record.blank = a
  ext : ∀ a b, (∀ e ∈ entries, e.Agrees a b) → plain a = plain b

/-- A draft has the members of a record where they have been read, and else those of the blank
record. -/
structure Drafts (entries : List (Entry ρ)) (r blank : ρ) (pending : List (Entry ρ)) (draft : ρ) :
    Prop where
  sublist : pending.Sublist entries
  taken : ∀ e ∈ entries, e ∈ pending ∨ e.Agrees draft r
  untaken : ∀ e ∈ pending, e.Agrees draft blank

namespace Drafts

private theorem start (r blank : ρ) : Drafts entries r blank entries blank :=
  ⟨List.Sublist.refl _, fun _ he ↦ .inl he, fun _ _ ↦ rfl⟩

private theorem name_notMem (h : Drafts entries r blank (before ++ e :: after) draft)
    (hnodup : (entries.map (·.name)).Nodup) : e.name ∉ (before ++ after).map (·.name) := by
  have hpending := hnodup.sublist (h.sublist.map (·.name))
  rw [List.map_append, List.map_cons, List.nodup_middle, ← List.map_append,
    List.nodup_cons] at hpending
  exact hpending.1

private theorem step (h : Drafts entries r blank (before ++ e :: after) draft)
    (hnodup : (entries.map (·.name)).Nodup) {update : ρ → ρ} (hread : e.Agrees (update draft) r)
    (hframe : ∀ e' ∈ entries, e'.name = e.name ∨ e'.Agrees (update draft) draft) :
    Drafts entries r blank (before ++ after) (update draft) := by
  have hsub : (before ++ after).Sublist (before ++ e :: after) :=
    (List.sublist_cons_self e after).append_left before
  have hsame {e' : Entry ρ} (he' : e' ∈ entries) (hname : e'.name = e.name) : e' = e :=
    List.inj_on_of_nodup_map hnodup he' (h.sublist.subset (by simp)) hname
  refine ⟨hsub.trans h.sublist, fun e' he' ↦ ?_, fun e' he' ↦ ?_⟩
  · obtain hname | hkept := hframe e' he'
    · exact .inr (hsame he' hname ▸ hread)
    · obtain hp | ha := h.taken e' he'
      · rw [List.mem_append, List.mem_cons] at hp
        obtain hb | rfl | ha := hp
        · exact .inl (List.mem_append_left _ hb)
        · exact .inr hread
        · exact .inl (List.mem_append_right _ ha)
      · exact .inr (hkept.trans ha)
  · have hne : e'.name ≠ e.name := fun hn ↦
      h.name_notMem hnodup (hn ▸ List.mem_map_of_mem he')
    have hkept := (hframe e' ((hsub.trans h.sublist).subset he')).resolve_left hne
    exact hkept.trans (h.untaken e' (hsub.subset he'))

private theorem plain_eq {record : Record m ρ} {plain : ρ → ρ}
    (hr : record.Implements entries plain)
    (h : Drafts entries r record.blank pending draft) (homits : ∀ e ∈ pending, e.Omits r) :
    plain draft = plain r := by
  refine hr.ext draft r fun e he ↦ ?_
  obtain hp | ha := h.taken e he
  · have hblank : e.get record.blank = e.get r := hr.blank e he _ (homits e hp)
    rw [Entry.Agrees, ← hblank]
    exact h.untaken e hp
  · exact ha

end Drafts

namespace Record

variable {record : Record m ρ} {plain : ρ → ρ}

namespace Implements

private theorem eq_of_name (h : record.Implements entries plain) {e' : Entry ρ} (he' : e' ∈ entries)
    (he : e ∈ entries) (hname : e'.name = e.name) : e' = e :=
  List.inj_on_of_nodup_map h.nodup he' he hname

private theorem exists_field (h : record.Implements entries plain) (he : e ∈ entries) :
    ∃ f, record.field? e.name = some f ∧ e.ReadBy entries f := by
  obtain ⟨index, hindex, rfl⟩ := List.mem_iff_getElem.mp he
  have hlength : index < record.fields.length := h.fields.length_eq ▸ hindex
  have hname : record.fields[index].name = entries[index].name :=
    (h.fields.get hindex hlength).name_eq
  obtain ⟨f, hf⟩ : ∃ f, record.field? entries[index].name = some f := by
    rw [field?, ← Option.isSome_iff_exists, List.find?_isSome]
    exact ⟨_, List.getElem_mem hlength, beq_iff_eq.mpr hname⟩
  obtain ⟨e', he', hread⟩ := exists_mem_of_forall₂ h.fields (List.mem_of_find?_eq_some hf)
  have hfound := List.find?_some (p := fun f : Field m ρ ↦ f.name == entries[index].name) hf
  have hsame : e'.name = entries[index].name := hread.name_eq.symm.trans (beq_iff_eq.mp hfound)
  exact ⟨f, hf, h.eq_of_name he' he hsame ▸ hread⟩

private theorem field?_eq_none (h : record.Implements entries plain) {name : String}
    (hname : name ∉ entries.map (·.name)) : record.field? name = none := by
  rw [field?, List.find?_eq_none]
  intro f hf hn
  obtain ⟨e, he, hread⟩ := exists_mem_of_forall₂ h.fields hf
  rw [beq_iff_eq, hread.name_eq] at hn
  exact hname (hn ▸ List.mem_map_of_mem he)

private theorem missing?_eq_none (h : record.Implements entries plain) {given : List String}
    (hg : ∀ e ∈ entries, e.default? = none → e.name ∈ given) : record.missing? given = none := by
  rw [missing?, List.find?_eq_none]
  intro f hf hn
  obtain ⟨e, he, hread⟩ := exists_mem_of_forall₂ h.fields hf
  rw [Bool.and_eq_true, hread.name_eq] at hn
  simp [hg e he (hread.default?_eq_none hn.1)] at hn

end Implements

private theorem yields_ofMembers (h : record.Implements entries plain) {given : List String}
    {members : List (String × Json)} (hd : Drafts entries r record.blank pending draft)
    (hgiven : ∀ e ∈ entries, e.name ∈ given ↔ e.name ∉ pending.map (·.name))
    (hm : Members (entries.map (·.name)) r pending members) :
    Yields (record.ofMembers given draft members) fun b ↦ plain b = plain r := by
  induction hm generalizing given draft with
  | nil homits =>
    have hmissing : record.missing? given = none := h.missing?_eq_none fun e he hnone ↦ by
      refine (hgiven e he).mpr fun hp ↦ ?_
      obtain ⟨e', he', hname⟩ := List.mem_map.mp hp
      obtain rfl := h.eq_of_name (hd.sublist.subset he') he hname
      have homit := homits e' he'
      rw [Entry.Omits, hnone] at homit
      exact nomatch homit
    rw [ofMembers, hmissing]
    exact Succeeds.pure (hd.plain_eq h homits)
  | @entry before after e v rest hv hrest ih =>
    have he : e ∈ entries := hd.sublist.subset (by simp)
    obtain ⟨f, hf, hread⟩ := h.exists_field he
    have hnew : given.contains e.name = false := by
      rw [List.contains_eq_mem, decide_eq_false_iff_not, hgiven e he]
      simp
    have hother := hd.name_notMem h.nodup
    rw [ofMembers, hf]
    dsimp only
    rw [hnew]
    refine Succeeds.bind (hread.read hv) fun update hu ↦ ?_
    refine ih (hd.step h.nodup (hu draft).1 (hu draft).2) fun e' he' ↦ ?_
    have := hgiven e' he'
    grind
  | @other pending name v rest hname hv hrest ih =>
    rw [ofMembers, h.field?_eq_none hname]
    dsimp only
    rw [if_pos hv]
    exact ih hd hgiven

omit [Succeeds m] in
private theorem ofItems_nil {index : Nat} {fields : List (Field m ρ)}
    (h : ∀ f ∈ fields, f.isRequired = false) :
    record.ofItems index draft fields [] = pure draft := by
  induction fields generalizing index with
  | nil => rfl
  | cons f fields ih =>
    rw [List.forall_mem_cons] at h
    rw [ofItems, h.1]
    exact ih h.2

private theorem yields_ofItems (h : record.Implements entries plain) {index : Nat}
    {fields : List (Field m ρ)} {items : List Json}
    (hd : Drafts entries r record.blank pending draft)
    (hfields : List.Forall₂ (Entry.ReadBy entries) pending fields) (hi : Items r pending items) :
    Yields (record.ofItems index draft fields items) fun b ↦ plain b = plain r := by
  induction hi generalizing index draft fields with
  | nil homits =>
    have hoptional : ∀ f ∈ fields, f.isRequired = false := by
      intro f hf
      obtain ⟨e, he, hread⟩ := exists_mem_of_forall₂ hfields hf
      refine Bool.eq_false_iff.mpr fun hrequired ↦ ?_
      have homit := homits e he
      rw [Entry.Omits, hread.default?_eq_none hrequired] at homit
      exact nomatch homit
    rw [ofItems_nil hoptional]
    exact Succeeds.pure (hd.plain_eq h homits)
  | @entry e pending v rest hv hrest ih =>
    cases hfields with
    | @cons _ f _ fields hread hfields =>
      refine Succeeds.bind (hread.read hv) fun update hu ↦ ?_
      have hd' : Drafts entries r record.blank ([] ++ e :: pending) draft := hd
      exact ih (hd'.step h.nodup (hu draft).1 (hu draft).2) hfields

/-- A record whose fields read its entries comes from every written form of it to the record
itself, up to what is not written. -/
theorem Implements.reads (h : record.Implements entries plain) :
    (Writing.record entries plain).Reads record.decode := by
  intro r v hv
  cases hv with
  | object hm =>
    refine yields_ofMembers h (.start r record.blank) (fun e he ↦ ?_) hm
    simp only [List.not_mem_nil, false_iff, not_not]
    exact List.mem_map_of_mem he
  | array hi => exact yields_ofItems h (.start r record.blank) h.fields hi

end Record

end Reads

/-! ### Scalars, lists and optional values -/

namespace Writing

variable {β : Type}

/-- A string. -/
def string : Writing String where
  Writes s v := v = .string s
  plain := id
  isWellFormed := by
    rintro s v rfl
    rfl

/-- A boolean. -/
def bool : Writing Bool where
  Writes b v := v = .bool b
  plain := id
  isWellFormed := by
    rintro b v rfl
    rfl

/-- A signed integer of 32 bits, written as an integer. -/
def int32 : Writing Int32 where
  Writes n v := v = .number (.int n.toInt)
  plain := id
  isWellFormed := by
    rintro n v rfl
    rfl

/-- An unsigned integer of 16 bits, written as an integer. -/
def uint16 : Writing UInt16 where
  Writes n v := v = .number (.int n.toNat)
  plain := id
  isWellFormed := by
    rintro n v rfl
    rfl

/-- A list, written as the array of its items. -/
def list (w : Writing α) : Writing (List α) where
  Writes l v := ∃ items, v = .array items ∧ List.Forall₂ w.Writes l items
  plain := List.map w.plain
  isWellFormed := by
    rintro l v ⟨items, rfl, h⟩
    induction h with
    | nil => rfl
    | cons hv _ ih => exact (Bool.and_eq_true _ _).mpr ⟨w.isWellFormed hv, ih⟩

/-- A value that there may be, written as null when there is none. -/
def optional (w : Writing α) : Writing (Option α) where
  Writes o v := match o with
    | none => v = .null
    | some a => w.Writes a v
  plain := Option.map w.plain
  isWellFormed {o v} h := by
    cases o with
    | none =>
      subst h
      rfl
    | some a => exact w.isWellFormed h

/-- A list of values of which all is written is written as a whole. -/
theorem plain_list {w : Writing α} (h : ∀ a, w.plain a = a) (l : List α) : w.list.plain l = l :=
  List.map_id'' h l

/-- A value that there may be and of which all is written is written as a whole. -/
theorem plain_optional {w : Writing α} (h : ∀ a, w.plain a = a) (o : Option α) :
    w.optional.plain o = o := by
  cases o with
  | none => rfl
  | some a => exact congrArg some (h a)

/-- A value that is written as one of its parts. -/
def part (w : Writing α) (get : β → α) (plain : β → β) : Writing β where
  Writes b v := w.Writes (get b) v
  plain
  isWellFormed := w.isWellFormed

end Writing

section Reads

variable [Succeeds m] {w : Writing α} {decode : Json → m α}

/-- Strings are read. -/
theorem reads_string : Writing.string.Reads string := by
  rintro s v rfl
  exact ⟨s, rfl, rfl⟩

/-- Booleans are read. -/
theorem reads_bool : Writing.bool.Reads bool := by
  rintro b v rfl
  exact ⟨b, rfl, rfl⟩

/-- Signed integers of 32 bits are read. -/
theorem reads_int32 : Writing.int32.Reads int32 := by
  rintro n v rfl
  refine ⟨n, ?_, rfl⟩
  have hn : Int32.minValue.toInt ≤ n.toInt ∧ n.toInt ≤ Int32.maxValue.toInt :=
    ⟨n.minValue_le_toInt, n.toInt_le⟩
  rw [int32, integer, if_pos hn, Except.map, Int32.ofInt_toInt]

/-- Unsigned integers of 16 bits are read. -/
theorem reads_uint16 : Writing.uint16.Reads uint16 := by
  rintro n v rfl
  refine ⟨n, ?_, rfl⟩
  have hn : 0 ≤ (n.toNat : Int) ∧ (n.toNat : Int) ≤ (UInt16.size : Int) - 1 := by
    have := n.toNat_lt_size
    omega
  rw [uint16, integer, if_pos hn, Except.map, Int.toNat_natCast, UInt16.ofNat_toNat]

/-- A decoder that hands out nothing reads what it reads among those that do. -/
theorem reads_ofExcept {decode : Json → Except DecodeError α} (h : w.Reads decode) :
    w.Reads fun v ↦ DecodeM.ofExcept (decode v) :=
  fun a v hv ↦ yields_ofExcept (h a v hv)

/-- Lists are read when their items are. -/
theorem reads_list [LawfulMonad m] (h : w.Reads decode) : w.list.Reads (list decode) := by
  rintro l v ⟨items, rfl, hitems⟩
  rw [list]
  induction hitems with
  | nil => exact Succeeds.pure rfl
  | @cons a v l items hv _ ih =>
    rw [List.mapM_cons]
    refine Succeeds.bind (h a v hv) fun b hb ↦ Succeeds.bind ih fun bs hbs ↦ Succeeds.pure ?_
    exact congrArg₂ List.cons hb hbs

/-- Values that there may be are read when none is written as null. -/
theorem reads_optional [LawfulMonad m] (h : w.Reads decode) (hnull : ∀ a, ¬ w.Writes a .null) :
    w.optional.Reads (optional decode) := by
  intro o v hv
  cases o with
  | none =>
    obtain rfl : v = .null := hv
    exact Succeeds.pure rfl
  | some a =>
    have hne : v ≠ .null := fun hn ↦ hnull a (hn ▸ hv)
    have hdecode : optional decode v = some <$> decode v := by
      cases v with
      | null => exact absurd rfl hne
      | _ => rfl
    rw [hdecode]
    exact yields_map (h a v hv) fun b hb ↦ congrArg some hb

/-- Records are not written as null. -/
theorem Form.ne_null {entries : List (Entry ρ)} {r : ρ} {v : Json} (h : Form entries r v) :
    v ≠ .null := by
  cases h <;> exact fun h ↦ nomatch h

/-- The text is a written form of the value, and nests no deeper than texts are read. -/
def Writing.WritesText (w : Writing α) (a : α) (s : String) : Prop :=
  (Json.Document.ofText s).isWhole ∧ (Json.Document.ofText s).root.depth ≤ depthLimit ∧
    w.Writes a (Json.Document.ofText s).root

/-- Texts are read when the values that they hold are. -/
theorem reads_text (h : w.Reads decode) {a : α} {s : String} (hs : w.WritesText a s) :
    Yields (text decode s) fun b ↦ w.plain b = w.plain a := by
  obtain ⟨hwhole, hdepth, hv⟩ := hs
  have hclip : (Json.Document.ofText s).clip depthLimit = Json.Document.ofText s := by
    rw [Json.Document.clip, Json.clip_eq_self hdepth]
  rw [text, hclip]
  refine yields_document ?_ (h a _ hv)
  rw [Json.Document.isWellFormed, hwhole, w.isWellFormed hv]
  rfl

end Reads

end Cil.Decode
