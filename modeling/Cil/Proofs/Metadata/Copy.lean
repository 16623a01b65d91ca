import Cil.Metadata.Copy
import Cil.Proofs.Decode.Alike
import Cil.Proofs.Metadata.Holdings
import Cil.Proofs.Metadata.Written
import Cil.Session
import Mathlib.Algebra.Order.BigOperators.Group.List
import Mathlib.Data.Multiset.OrderedMonoid

/-!
# Copies are equal, instructions are not

Equality takes identities into account. A copy of code, and of all that has code in it, keeps the
identities and so is equal to what it was made of, while a copy of an instruction never is. A text
that is decoded again gives the same value again up to the identities, so the two are equal if there
is no instruction in them, and only then: `copies_respect_identity`.
-/

namespace Cil

open Decode (Field)
open DecodeM (Alike)

/-! ### Code in metadata -/

/-- The code of a method that has a body. -/
def MethodDef.codes (m : MethodDef) : List Code := m.body.toList.map (·.code)

/-- The code of the accessors of a property. -/
def PropertyDef.codes (p : PropertyDef) : List Code :=
  p.getter.toList.flatMap MethodDef.codes ++ p.setter.toList.flatMap MethodDef.codes

/-- The code of the methods and the accessors of a type. -/
def TypeDef.codes (d : TypeDef) : List Code :=
  d.methods.flatMap MethodDef.codes ++ d.properties.flatMap PropertyDef.codes

/-! ### Copies -/

section Copies

variable {α : Type} {copy : α → CopyM α}

/-- A copy is equal to what it is made of and takes no identity from the supply. In its code every
identity stands where it stood. -/
structure KeepsIdentities (codes : α → List Code) (copy : α → CopyM α) : Prop where
  same : ∀ a s, (copy a).run s = (a, s)
  positions : ∀ a s id,
    (codes ((copy a).run s).1).map (·.position? id) = (codes a).map (·.position? id)

private theorem KeepsIdentities.of_pure (codes : α → List Code) (h : ∀ a, copy a = pure a) :
    KeepsIdentities codes copy where
  same a s := by
    rw [h]
    rfl
  positions a s id := by
    rw [h]
    rfl

private theorem mapM_optional_of_pure (h : ∀ a, copy a = pure a) (o : Option α) :
    o.mapM copy = pure o := by
  cases o with
  | none => rfl
  | some a => rw [Option.mapM_some, h, map_pure]

private theorem mapM_list_of_pure (h : ∀ a, copy a = pure a) (l : List α) :
    l.mapM copy = pure l := by
  rw [funext h]
  simpa using List.mapM_pure (m := CopyM) (l := l) (f := id)

end Copies

private theorem Code.copy_eq (c : Code) : c.copy = pure c := by
  have h : c.toList.map Instr.again = c.toList := List.map_id'' (fun _ ↦ rfl) c.toList
  rw [copy, h]

private theorem MethodBody.copy_eq (b : MethodBody) : b.copy = pure b := by
  rw [copy, Code.copy_eq, pure_bind]

private theorem MethodDef.copy_eq (m : MethodDef) : m.copy = pure m := by
  rw [copy, mapM_optional_of_pure MethodBody.copy_eq, pure_bind]

private theorem PropertyDef.copy_eq (p : PropertyDef) : p.copy = pure p := by
  rw [copy, mapM_optional_of_pure MethodDef.copy_eq, mapM_optional_of_pure MethodDef.copy_eq,
    pure_bind, pure_bind]

/-- Copying a type returns it. -/
theorem TypeDef.copy_eq (d : TypeDef) : d.copy = pure d := by
  rw [copy, mapM_list_of_pure MethodDef.copy_eq, mapM_list_of_pure PropertyDef.copy_eq, pure_bind,
    pure_bind]

/-- A copy of an instruction whose identity has been handed out is another instruction. -/
theorem Instr.duplicate_ne {i : Instr} {s : Supply} (h : s.hasIssued i.id) :
    (i.duplicate s).1 ≠ i := by
  intro heq
  have hnew : s.hasIssued i.id = false := heq ▸ s.not_hasIssued_take
  rw [h] at hnew
  cases hnew

/-! ### Decoding again -/

/-- Instructions decoded again are the same up to the identity. -/
theorem Instr.alike_decode (v : Json) : Alike anonymous (decode v) (decode v) := by
  let r := DecodeM.ofExcept (record.decode v)
  have hr : Alike (fun p ↦ p) r r := .ofExcept _
  cases v with
  | array items =>
    refine Alike.fresh.bind fun _ _ _ ↦ hr.bind ?_
    rintro p _ rfl
    exact .pure rfl
  | _ =>
    refine hr.bind ?_
    rintro p _ rfl
    exact Alike.fresh.bind fun _ _ _ ↦ .pure rfl

private theorem Code.alike_decode (v : Json) : Alike anonymous (decode v) (decode v) :=
  (Decode.alike_list Instr.alike_decode v).map fun _ _ h ↦ congrArg Code.mk h

private theorem Attribute.alike_decode (v : Json) : Alike id (decode v) (decode v) := by
  refine Decode.Record.alike ?_ v
  rw [record, List.forall_mem_singleton]
  exact Field.alike_of_plain (fun v ↦ .ofExcept _) fun _ _ _ _ ↦ rfl

private theorem MethodBody.alike_decode (v : Json) : Alike anonymous (decode v) (decode v) := by
  refine Decode.Record.alike ?_ v
  rw [record, List.forall_mem_singleton]
  exact Field.alike_of_put Code.alike_decode fun _ _ _ _ h _ ↦ congrArg MethodBody.mk h

private theorem MethodDef.alike_decode (v : Json) : Alike anonymous (decode v) (decode v) := by
  refine Decode.Record.alike ?_ v
  simp only [record, List.forall_mem_cons, List.not_mem_nil, false_implies, implies_true, and_true]
  refine ⟨?name, ?isAbstract, ?body, ?attributes⟩
  case name => exact Field.alike_of_plain (fun v ↦ .ofExcept _) (by simp +contextual [anonymous])
  case isAbstract =>
    exact Field.alike_of_plain (fun v ↦ .ofExcept _) (by simp +contextual [anonymous])
  case body =>
    exact Field.alike_of_put (Decode.alike_optional MethodBody.alike_decode)
      (by simp +contextual [anonymous])
  case attributes =>
    exact Field.alike_of_plain (Decode.alike_list_plain Attribute.alike_decode)
      (by simp +contextual [anonymous])

private theorem PropertyDef.alike_decode (v : Json) : Alike anonymous (decode v) (decode v) := by
  have accessor := Decode.alike_optional MethodDef.alike_decode
  refine Decode.Record.alike ?_ v
  simp only [record, List.forall_mem_cons, List.not_mem_nil, false_implies, implies_true, and_true]
  refine ⟨?name, ?getter, ?setter⟩
  case name => exact Field.alike_of_plain (fun v ↦ .ofExcept _) (by simp +contextual [anonymous])
  case getter => exact Field.alike_of_put accessor (by simp +contextual [anonymous])
  case setter => exact Field.alike_of_put accessor (by simp +contextual [anonymous])

/-- A type decoded again is the same up to the identities. -/
theorem TypeDef.alike_decode (v : Json) : Alike anonymous (decode v) (decode v) := by
  refine Decode.Record.alike ?_ v
  simp only [record, List.forall_mem_cons, List.not_mem_nil, false_implies, implies_true, and_true]
  refine ⟨?fullName, ?base, ?interfaces, ?methods, ?properties, ?attributes⟩
  case fullName =>
    exact Field.alike_of_plain (fun v ↦ .ofExcept _) (by simp +contextual [anonymous])
  case base =>
    exact Field.alike_of_plain (Decode.alike_optional_plain fun v ↦ .ofExcept _)
      (by simp +contextual [anonymous])
  case interfaces =>
    exact Field.alike_of_plain (Decode.alike_list_plain fun v ↦ .ofExcept _)
      (by simp +contextual [anonymous])
  case methods =>
    exact Field.alike_of_put (Decode.alike_list MethodDef.alike_decode)
      (by simp +contextual [anonymous])
  case properties =>
    exact Field.alike_of_put (Decode.alike_list PropertyDef.alike_decode)
      (by simp +contextual [anonymous])
  case attributes =>
    exact Field.alike_of_plain (Decode.alike_list_plain Attribute.alike_decode)
      (by simp +contextual [anonymous])

/-! ### When definitions are equal -/

private theorem Code.ids_eq_zero_iff {c : Code} : c.ids = 0 ↔ c.isEmpty := by
  rw [ids, Instr.ids, isEmpty, Multiset.coe_eq_zero, List.map_eq_nil_iff, List.isEmpty_iff]

private theorem MethodDef.ids_eq_zero_iff {m : MethodDef} :
    m.ids = 0 ↔ ∀ c ∈ m.codes, c.isEmpty := by
  rw [ids, codes]
  cases m.body <;> simp [Code.ids_eq_zero_iff]

private theorem PropertyDef.ids_eq_zero_iff {p : PropertyDef} :
    p.ids = 0 ↔ ∀ c ∈ p.codes, c.isEmpty := by
  have accessor (o : Option MethodDef) :
      (o.map MethodDef.ids).getD 0 = 0 ↔ ∀ c ∈ o.toList.flatMap MethodDef.codes, c.isEmpty := by
    cases o <;> simp [MethodDef.ids_eq_zero_iff]
  rw [ids, codes, add_eq_zero, List.forall_mem_append, accessor, accessor]

private theorem TypeDef.ids_eq_zero_iff {d : TypeDef} : d.ids = 0 ↔ ∀ c ∈ d.codes, c.isEmpty := by
  simp only [ids, codes, add_eq_zero, List.sum_eq_zero_iff, List.forall_mem_map,
    List.forall_mem_append, List.forall_mem_flatMap, MethodDef.ids_eq_zero_iff,
    PropertyDef.ids_eq_zero_iff]

private theorem MethodDef.codes_anonymous (m : MethodDef) :
    m.anonymous.codes = m.codes.map Code.anonymous := by
  rw [codes, codes, anonymous]
  cases m.body <;> rfl

private theorem PropertyDef.codes_anonymous (p : PropertyDef) :
    p.anonymous.codes = p.codes.map Code.anonymous := by
  have accessor (o : Option MethodDef) :
      (o.map MethodDef.anonymous).toList.flatMap MethodDef.codes =
        (o.toList.flatMap MethodDef.codes).map Code.anonymous := by
    cases o <;> simp [MethodDef.codes_anonymous]
  rw [codes, codes, anonymous, List.map_append, accessor, accessor]

private theorem TypeDef.codes_anonymous (d : TypeDef) :
    d.anonymous.codes = d.codes.map Code.anonymous := by
  simp only [codes, anonymous, List.map_append, List.map_flatMap, List.flatMap_map,
    MethodDef.codes_anonymous, PropertyDef.codes_anonymous]

private theorem TypeDef.isEmpty_codes_anonymous {d : TypeDef} :
    (∀ c ∈ d.anonymous.codes, c.isEmpty) ↔ ∀ c ∈ d.codes, c.isEmpty := by
  have hbare (c : Code) : c.anonymous.isEmpty = c.isEmpty := List.isEmpty_map
  simp only [codes_anonymous, List.forall_mem_map, hbare]

private theorem MethodDef.anonymous_eq_self {m : MethodDef} (h : ∀ c ∈ m.codes, c.isEmpty) :
    m.anonymous = m := by
  obtain ⟨name, isAbstract, body, attributes⟩ := m
  rcases body with _ | ⟨⟨⟨l⟩⟩⟩
  · rfl
  · obtain rfl : l = [] := by simpa [codes, Code.isEmpty] using h
    rfl

private theorem PropertyDef.anonymous_eq_self {p : PropertyDef} (h : ∀ c ∈ p.codes, c.isEmpty) :
    p.anonymous = p := by
  have accessor (o : Option MethodDef) (ho : ∀ c ∈ o.toList.flatMap MethodDef.codes, c.isEmpty) :
      o.map MethodDef.anonymous = o := by
    cases o with
    | none => rfl
    | some m => exact congrArg some (MethodDef.anonymous_eq_self (by simpa using ho))
  obtain ⟨hgetter, hsetter⟩ := List.forall_mem_append.mp h
  rw [anonymous, accessor _ hgetter, accessor _ hsetter]

private theorem TypeDef.anonymous_eq_self {d : TypeDef} (h : ∀ c ∈ d.codes, c.isEmpty) :
    d.anonymous = d := by
  obtain ⟨hmethods, hproperties⟩ := List.forall_mem_append.mp h
  rw [List.forall_mem_flatMap] at hmethods hproperties
  have hms : d.methods.map MethodDef.anonymous = d.methods.map id :=
    List.map_congr_left fun m hm ↦ MethodDef.anonymous_eq_self (hmethods m hm)
  have hps : d.properties.map PropertyDef.anonymous = d.properties.map id :=
    List.map_congr_left fun p hp ↦ PropertyDef.anonymous_eq_self (hproperties p hp)
  rw [anonymous, hms, hps, List.map_id, List.map_id]

private theorem TypeDef.eq_iff_of_issued {d e : TypeDef} {s t u w : Supply}
    (h : e.anonymous = d.anonymous) (hd : d.ids ≤ s.issued t) (he : e.ids ≤ u.issued w)
    (htu : t.next ≤ u.next) : e = d ↔ ∀ c ∈ d.codes, c.isEmpty := by
  constructor
  · rintro rfl
    rw [← ids_eq_zero_iff]
    refine Multiset.eq_zero_of_forall_notMem fun id hid ↦ ?_
    have hearlier := Supply.mem_issued_iff.mp (Multiset.mem_of_le hd hid)
    have hlater := Supply.mem_issued_iff.mp (Multiset.mem_of_le he hid)
    omega
  · intro hempty
    have hempty' : ∀ c ∈ e.codes, c.isEmpty := by
      rw [← isEmpty_codes_anonymous, h, isEmpty_codes_anonymous]
      exact hempty
    rw [← anonymous_eq_self hempty, ← h, anonymous_eq_self hempty']

/-- A text that is decoded again, any time later, decodes to an equal type exactly when there is no
instruction in the type. -/
theorem TypeDef.decode_again {text : String} {s t u : Supply} {d : TypeDef}
    (h : DecodeM.runText decode text s = (.ok d, t)) (htu : t.next ≤ u.next) :
    ∃ e w, DecodeM.runText decode text u = (.ok e, w) ∧
      (e = d ↔ ∀ c ∈ d.codes, c.isEmpty) := by
  have hd := (Decode.draws_text draws_decode text s).2 d
  have hok : ((Decode.text decode text).outcome s).1 = .ok d := by rw [DecodeM.outcome_text, h]
  obtain ⟨e, he, hsame⟩ := (Decode.alike_text alike_decode text).exists_ok hok u
  have hu := (Decode.draws_text draws_decode text u).2 e he
  rw [DecodeM.outcome_text, h, zero_add] at hd
  rw [zero_add] at hu
  exact ⟨e, _, Prod.ext he rfl, eq_iff_of_issued hsame (hd rfl) hu htu⟩

/-- Copies of code and of all that has code in it are equal to what they are made of, and have
every identity in the same place; copies of instructions are of the same offset, opcode, size and
assembly text but never equal; and a type is equal to what its text decodes to another time exactly
when there is no instruction in its methods and accessors. -/
theorem copies_respect_identity :
    (KeepsIdentities (fun c ↦ [c]) Code.copy ∧
      KeepsIdentities (fun b ↦ [b.code]) MethodBody.copy ∧
      KeepsIdentities MethodDef.codes MethodDef.copy ∧
      KeepsIdentities PropertyDef.codes PropertyDef.copy ∧
      KeepsIdentities TypeDef.codes TypeDef.copy) ∧
    (∀ (i : Instr) (s : Supply), s.hasIssued i.id →
      (i.duplicate s).1 ≠ i ∧ (i.duplicate s).1.offset = i.offset ∧
        (i.duplicate s).1.opcode = i.opcode ∧ (i.duplicate s).1.size = i.size ∧
        (i.duplicate s).1.assembly = i.assembly) ∧
    ∀ (text : String) (s t : Supply) (d : TypeDef),
      DecodeM.runText TypeDef.decode text s = (.ok d, t) → ∀ u : Supply, t.next ≤ u.next →
        ∃ e w, DecodeM.runText TypeDef.decode text u = (.ok e, w) ∧
          (e = d ↔ ∀ c ∈ d.codes, c.isEmpty) := by
  refine ⟨⟨?code, ?body, ?method, ?property, ?type⟩, ?instr, ?decoded⟩
  case code => exact .of_pure _ Code.copy_eq
  case body => exact .of_pure _ MethodBody.copy_eq
  case method => exact .of_pure _ MethodDef.copy_eq
  case property => exact .of_pure _ PropertyDef.copy_eq
  case type => exact .of_pure _ TypeDef.copy_eq
  case instr => exact fun i s h ↦ ⟨i.duplicate_ne h, rfl, rfl, rfl, rfl⟩
  case decoded => exact fun text s t d h u htu ↦ TypeDef.decode_again h htu

namespace DecodedTwice

/-- A type with an instruction in its only getter. -/
def withGetter : String :=
  "[\"N.T\",null,[],[[\"M\",true]],[[\"P\",[\"get_P\",false,[[\x7b\"opcode\":\"ret\"\x7d]]]]]]"

/-- The only instruction. -/
def ret : Instr := { id := ⟨1⟩, offset := 0, opcode := .ret }

/-- The type with a getter, decoded for the first time. -/
def getterType : TypeDef :=
  { TypeDef.ofName "N.T" with
    methods := [.abstract "M"]
    properties := [{
      name := "P"
      getter := some { MethodDef.concrete "get_P" with body := some ⟨⟨[ret]⟩⟩ }
      setter := none }] }

/-- A type with nothing but an empty body. -/
def withMethod : String := "[\"N.T\",null,[],[[\"M\",false,[]]]]"

/-- The type with a method. -/
def methodType : TypeDef := { TypeDef.ofName "N.T" with methods := [.concrete "M"] }

end DecodedTwice

open DecodedTwice in
/-- An instruction in a getter tells two decodings apart, an empty body does not. -/
theorem copies_respect_identity_getter :
    DecodeM.runText TypeDef.decode withGetter .full = (.ok getterType, ⟨2⟩) ∧
    DecodeM.runText TypeDef.decode withMethod .full = (.ok methodType, .full) ∧
    (ret.duplicate ⟨2⟩).1 ≠ ret ∧
    (∃ e w, DecodeM.runText TypeDef.decode withGetter ⟨2⟩ = (.ok e, w) ∧ e ≠ getterType) ∧
    ∃ e w, DecodeM.runText TypeDef.decode withMethod ⟨2⟩ = (.ok e, w) ∧ e = methodType := by
  have hgetter : DecodeM.runText TypeDef.decode withGetter .full = (.ok getterType, ⟨2⟩) := by
    decide +kernel
  have hmethod : DecodeM.runText TypeDef.decode withMethod .full = (.ok methodType, .full) := by
    decide +kernel
  obtain ⟨-, hinstr, hdecoded⟩ := copies_respect_identity
  obtain ⟨hne, -⟩ := hinstr ret ⟨2⟩ (by decide)
  obtain ⟨e, w, he, hunequal⟩ := hdecoded _ _ _ _ hgetter ⟨2⟩ (Nat.le_refl _)
  obtain ⟨e', w', he', hequal⟩ := hdecoded _ _ _ _ hmethod ⟨2⟩ (by decide)
  refine ⟨hgetter, hmethod, hne, ⟨e, w, he, fun h ↦ ?_⟩, e', w', he', ?_⟩
  · exact absurd (hunequal.mp h) (by decide)
  · exact hequal.mpr (by decide)

end Cil
