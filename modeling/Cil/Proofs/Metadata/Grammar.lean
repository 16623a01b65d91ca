import Cil.Metadata.TypeRef
import Cil.Proofs.Decode.Written

/-!
# Written type references

A reference is written as its full name when it names a type, and as an object of its name and its
constraints when it is a generic parameter; no constraints may be left out. Every such form is
read: `TypeRef.reads`.
-/

namespace Cil.TypeRef

open Decode (Writing)

/-- The members of this name. -/
def membersOf (name : String) (members : List (String × Json)) : List (String × Json) :=
  members.filter (·.1 == name)

mutual

/-- The reference is written like this. An object has the name once and the constraints at most
once, and any other members. -/
def Writes : TypeRef → Json → Prop
  | .named fullName, v => v = .string fullName
  | .generic name constraints, v => ∃ members, v = .object members ∧
    membersOf "name" members = [("name", .string name)] ∧
    ((membersOf "constraints" members = [] ∧ constraints = []) ∨
      ∃ items, membersOf "constraints" members = [("constraints", .array items)] ∧
        WritesAll constraints items)

/-- The references are written one by one. -/
def WritesAll : List TypeRef → List Json → Prop
  | [], items => items = []
  | t :: rest, items => ∃ v others, items = v :: others ∧ Writes t v ∧ WritesAll rest others

end

private theorem membersOf_self (name : String) (v : Json) (rest : List (String × Json)) :
    membersOf name ((name, v) :: rest) = (name, v) :: membersOf name rest := by
  rw [membersOf, List.filter_cons, beq_self_eq_true, if_pos rfl, membersOf]

private theorem membersOf_of_ne {name key : String} (h : key ≠ name) (v : Json)
    (rest : List (String × Json)) :
    membersOf name ((key, v) :: rest) = membersOf name rest := by
  rw [membersOf, List.filter_cons, beq_false_of_ne h, if_neg Bool.false_ne_true, membersOf]

/-- The name is known from earlier members and not given again, or it is given once. -/
def GivesName (members : List (String × Json)) (name? : Option String) (name : String) : Prop :=
  (name? = some name ∧ membersOf "name" members = []) ∨
    (name? = none ∧ membersOf "name" members = [("name", .string name)])

/-- The constraints are those of earlier members, or none, and not given again, or they are given
once. -/
def GivesConstraints (members : List (String × Json)) (constraints? : Option (List TypeRef))
    (constraints : List TypeRef) : Prop :=
  (constraints?.getD [] = constraints ∧ membersOf "constraints" members = []) ∨
    (constraints? = none ∧ ∃ items,
      membersOf "constraints" members = [("constraints", .array items)] ∧
        ofItems? items = some constraints)

-- What is sought has been found among earlier members, or it is still to come; the induction is
-- over both possibilities of the name and of the constraints at once.
private theorem ofMembers?_eq_some_iff {name? : Option String}
    {constraints? : Option (List TypeRef)} {members : List (String × Json)} {t : TypeRef} :
    ofMembers? name? constraints? members = some t ↔ ∃ name constraints,
      t = .generic name constraints ∧ GivesName members name? name ∧
        GivesConstraints members constraints? constraints := by
  induction members generalizing name? constraints? with
  | nil =>
    cases name? <;> simp [ofMembers?, GivesName, GivesConstraints, membersOf, eq_comm]
  | cons member rest ih =>
    obtain ⟨key, v⟩ := member
    rw [ofMembers?.eq_def]
    dsimp only
    by_cases hn : key = "name"
    · subst hn
      rw [if_pos rfl]
      have hc : membersOf "constraints" (("name", v) :: rest) = membersOf "constraints" rest :=
        membersOf_of_ne (by decide) v rest
      cases name? with
      | some name => simp [GivesName, membersOf_self]
      | none =>
        cases v with
        | string s => simp [ih, GivesName, GivesConstraints, membersOf_self, hc]
        | _ => simp [GivesName, membersOf_self]
    · have hrest : membersOf "name" ((key, v) :: rest) = membersOf "name" rest :=
        membersOf_of_ne hn v rest
      rw [if_neg hn]
      by_cases hc : key = "constraints"
      · subst hc
        rw [if_pos rfl]
        cases constraints? with
        | some constraints => simp [GivesConstraints, membersOf_self]
        | none =>
          cases v with
          | array items =>
            cases hi : ofItems? items with
            | none => simp [GivesConstraints, membersOf_self, hi]
            | some refs =>
              simp [ih, GivesName, GivesConstraints, membersOf_self, hrest, hi]
          | _ => simp [GivesConstraints, membersOf_self]
      · rw [if_neg hc, ih]
        simp only [GivesName, GivesConstraints, hrest, membersOf_of_ne hc]

mutual

private theorem ofJson?_of_writes : {t : TypeRef} → {v : Json} → t.Writes v → ofJson? v = some t
  | .named fullName, v, h => by
    obtain rfl : v = .string fullName := h
    rfl
  | .generic name constraints, v, h => by
    obtain ⟨members, rfl, hname, hconstraints⟩ := h
    rw [ofJson?, ofMembers?_eq_some_iff]
    refine ⟨name, constraints, rfl, .inr ⟨rfl, hname⟩, ?_⟩
    obtain ⟨hnone, rfl⟩ | ⟨items, hitems, hall⟩ := hconstraints
    · exact .inl ⟨rfl, hnone⟩
    · exact .inr ⟨rfl, items, hitems, ofItems?_of_writesAll hall⟩

private theorem ofItems?_of_writesAll :
    {l : List TypeRef} → {items : List Json} → WritesAll l items →
    ofItems? items = some l
  | [], items, h => by
    obtain rfl : items = [] := h
    rfl
  | t :: rest, items, h => by
    obtain ⟨v, others, rfl, hv, hothers⟩ := h
    rw [ofItems?, ofJson?_of_writes hv, ofItems?_of_writesAll hothers]
    rfl

end

mutual

private theorem writes_of_ofJson? : {t : TypeRef} → {v : Json} → ofJson? v = some t → t.Writes v
  | .named fullName, v, h => by
    cases v with
    | string s =>
      obtain rfl : s = fullName := by simpa [ofJson?] using h
      rfl
    | object members =>
      rw [ofJson?, ofMembers?_eq_some_iff] at h
      obtain ⟨_, _, ht, -⟩ := h
      cases ht
    | _ => cases h
  | .generic name constraints, v, h => by
    cases v with
    | object members =>
      rw [ofJson?, ofMembers?_eq_some_iff] at h
      obtain ⟨_, _, ht, hname, hconstraints⟩ := h
      cases ht
      obtain ⟨hsome, -⟩ | ⟨-, hname⟩ := hname
      · cases hsome
      refine ⟨members, rfl, hname, ?_⟩
      obtain ⟨hnone, hrest⟩ | ⟨-, items, hitems, hall⟩ := hconstraints
      · exact .inl ⟨hrest, hnone.symm⟩
      · exact .inr ⟨items, hitems, writesAll_of_ofItems? hall⟩
    | _ => cases h

private theorem writesAll_of_ofItems? : {l : List TypeRef} → {items : List Json} →
    ofItems? items = some l → WritesAll l items
  | [], items, h => by
    cases items with
    | nil => rfl
    | cons v rest =>
      rw [ofItems?] at h
      split at h <;> simp at h
  | t :: rest, items, h => by
    cases items with
    | nil => cases h
    | cons v others =>
      rw [ofItems?] at h
      split at h
      next ref href =>
        obtain ⟨refs, hrefs, hcons⟩ := Option.map_eq_some_iff.mp h
        obtain ⟨rfl, rfl⟩ := List.cons.inj hcons
        exact ⟨v, others, rfl, writes_of_ofJson? href, writesAll_of_ofItems? hrefs⟩
      next => cases h

end

/-- A value is a reference exactly when it is a written form of it. -/
theorem ofJson?_eq_some_iff {t : TypeRef} {v : Json} : ofJson? v = some t ↔ t.Writes v :=
  ⟨writes_of_ofJson?, ofJson?_of_writes⟩

/-- A value is a written form of a reference, or it is not, or it is not readable. -/
theorem decode_cases (v : Json) :
    (∃ t : TypeRef, v.isReadable ∧ t.Writes v ∧ decode v = .ok t) ∨
    (v.isReadable ∧ (¬ ∃ t : TypeRef, t.Writes v) ∧ decode v = .error .notTypeRef) ∨
    (¬ v.isReadable ∧ decode v = .error .malformed) := by
  by_cases hv : v.isReadable
  · cases h : ofJson? v with
    | some t =>
      refine .inl ⟨t, hv, ofJson?_eq_some_iff.mp h, ?_⟩
      rw [decode, if_pos hv, h]
    | none =>
      refine .inr (.inl ⟨hv, ?_, ?_⟩)
      · rintro ⟨t, ht⟩
        rw [ofJson?_of_writes ht] at h
        cases h
      · rw [decode, if_pos hv, h]
  · exact .inr (.inr ⟨hv, if_neg hv⟩)

/-- A readable value decodes to the reference that it is a written form of. -/
theorem decode_eq_ok_iff {t : TypeRef} {v : Json} :
    decode v = .ok t ↔ v.isReadable ∧ t.Writes v := by
  constructor
  · intro h
    obtain ⟨u, hv, hu, hdecode⟩ | ⟨-, -, hdecode⟩ | ⟨-, hdecode⟩ := decode_cases v
    · rw [hdecode] at h
      obtain rfl := Except.ok.inj h
      exact ⟨hv, hu⟩
    · rw [hdecode] at h
      cases h
    · rw [hdecode] at h
      cases h
  · rintro ⟨hv, ht⟩
    rw [decode, if_pos hv, ofJson?_of_writes ht]

/-- References are written as readable values. -/
def writing : Writing TypeRef where
  Writes t v := t.Writes v ∧ v.isReadable
  plain := id
  isWellFormed h := Json.isWellFormed_of_isReadable h.2

/-- References are read. -/
theorem reads : writing.Reads decode :=
  fun t _ h ↦ ⟨t, decode_eq_ok_iff.mpr h.symm, rfl⟩

/-- References are not written as null. -/
theorem not_writes_null (t : TypeRef) : ¬ writing.Writes t .null := by
  rintro ⟨hv, -⟩
  exact nomatch ofJson?_of_writes hv

/-! ### Texts of references -/

/-- No value is a written form of two references. -/
theorem Writes.eq {t u : TypeRef} {v : Json} (ht : t.Writes v) (hu : u.Writes v) : t = u :=
  Option.some.inj ((ofJson?_of_writes ht).symm.trans (ofJson?_of_writes hu))

/-- A text decodes to a reference exactly when it is well formed and its value, readable and nested
no deeper than texts are read, is a written form of that reference. Where the value is so readable
and no written form, wherever it departs from these, the error is the one of references. All other
texts are malformed. -/
theorem text_decode_iff (text : String) :
    let d := Json.Document.ofText text
    (∀ t, Decode.text decode text = .ok t ↔
      d.isWellFormed ∧ (d.root.isReadable ∧ d.root.depth ≤ Decode.depthLimit) ∧ t.Writes d.root) ∧
    (Decode.text decode text = .error .notTypeRef ↔
      (d.root.isReadable ∧ d.root.depth ≤ Decode.depthLimit) ∧ ¬ ∃ t : TypeRef, t.Writes d.root) ∧
    (Decode.text decode text = .error .malformed ↔
      ¬ (d.root.isReadable ∧ d.root.depth ≤ Decode.depthLimit) ∨
        ¬ d.isWellFormed ∧ ∃ t : TypeRef, t.Writes d.root) ∧
    DecodeError.notTypeRef.message =
      "data did not match any variant of untagged enum TypeRef" := by
  intro d
  have hmessage : DecodeError.notTypeRef.message =
      "data did not match any variant of untagged enum TypeRef" := rfl
  have hread := Json.isReadable_clip_iff (n := Decode.depthLimit) (v := d.root)
  have hwell := Json.Document.isWellFormed_clip Decode.depthLimit d
  have hroot (h : (d.root.clip Decode.depthLimit).isReadable) :
      d.root.clip Decode.depthLimit = d.root := Json.clip_eq_self (hread.mp h).2
  rw [Decode.text, ← hread]
  obtain ⟨t, hv, ht, hdecode⟩ | ⟨hv, hnone, hdecode⟩ | ⟨hv, hdecode⟩ :=
    decode_cases (d.root.clip Decode.depthLimit)
  · rw [hroot hv] at ht
    have hok (u : TypeRef) : t = u ↔ u.Writes d.root := ⟨fun he ↦ he ▸ ht, ht.eq⟩
    have hsome : ∃ u : TypeRef, u.Writes d.root := ⟨t, ht⟩
    rw [Decode.document_of_ok hdecode, hwell]
    by_cases hd : d.isWellFormed <;> simp [hd, hv, hok, hsome, hmessage]
  · rw [hroot hv] at hnone
    rw [Decode.document_of_error hdecode]
    simp [hv, not_exists.mp hnone, hmessage]
  · rw [Decode.document_of_error hdecode]
    simp [hv, hmessage]

example : Decode.text decode
    "\x7b\"k\":[null],\"constraints\":[\"A\",\x7b\"name\":\"U\"\x7d],\"name\":\"T\"\x7d" =
      .ok (.generic "T" [.named "A", .generic "U" []]) := by
  decide +kernel

example : Decode.text decode
    "\x7b\"constraints\":[\x7b\"name\":\"U\",\"constraints\":null\x7d],\"name\":\"T\"\x7d" =
      .error .notTypeRef := by
  decide +kernel

end Cil.TypeRef
