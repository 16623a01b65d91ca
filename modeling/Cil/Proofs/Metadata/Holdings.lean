import Cil.Metadata.Store
import Cil.Proofs.Decode.Draws
import Cil.Proofs.Named

/-!
# Identities in metadata

The instructions of a definition are those of its method bodies, accessors included. A decoded
definition draws the identities of them, and a store that is read from a document has no others
than those drawn for the document: what takes the place of an earlier definition only loses some.
-/

namespace Cil

open Decode (Field)
open DecodeM (Draws)

/-! ### What a definition holds -/

/-- The identities in the body of a method. -/
def MethodDef.ids (m : MethodDef) : Multiset InstrId := (m.body.map fun b ↦ b.code.ids).getD 0

/-- The identities in the accessors of a property. -/
def PropertyDef.ids (p : PropertyDef) : Multiset InstrId :=
  (p.getter.map MethodDef.ids).getD 0 + (p.setter.map MethodDef.ids).getD 0

/-- The identities in the methods and the properties of a type. -/
def TypeDef.ids (d : TypeDef) : Multiset InstrId :=
  (d.methods.map MethodDef.ids).sum + (d.properties.map PropertyDef.ids).sum

/-- The identities in the definitions of a store. -/
def Store.ids (s : Store) : Multiset InstrId := s.defs.total TypeDef.ids

/-! ### What decoding a definition draws -/

-- A part that is put into a place brings its identities in; those that were there are not needed.
private theorem add_le_left (old rest part : Multiset InstrId) :
    part + rest ≤ old + rest + part := by
  rw [add_comm part]
  exact add_le_add_left (Multiset.le_add_left rest old) part

private theorem add_le_right (old rest part : Multiset InstrId) :
    rest + part ≤ rest + old + part :=
  add_le_add_left (Multiset.le_add_right rest old) part

namespace Attribute

private theorem draws_decode (v : Json) : Draws 0 (fun _ ↦ 0) (decode v) := by
  refine Decode.Record.draws ?_ rfl v
  rw [record, List.forall_mem_singleton]
  exact Field.draws_of_plain (fun v ↦ .plain _) fun _ _ ↦ rfl

end Attribute

namespace MethodBody

/-- A body draws the identities of its code. -/
theorem draws_decode (v : Json) : Draws 0 (fun b : MethodBody ↦ b.code.ids) (decode v) := by
  refine Decode.Record.draws ?_ rfl v
  rw [record, List.forall_mem_singleton]
  exact Field.draws_of_put Code.draws_decode fun _ _ ↦ Multiset.le_add_left _ _

end MethodBody

namespace MethodDef

/-- A method draws the identities in its body. -/
theorem draws_decode (v : Json) : Draws 0 ids (decode v) := by
  refine Decode.Record.draws ?_ rfl v
  simp only [record, List.forall_mem_cons, List.not_mem_nil, false_implies, implies_true, and_true]
  refine ⟨?name, ?isAbstract, ?body, ?attributes⟩
  case name => exact Field.draws_of_plain (fun v ↦ .plain _) fun _ _ ↦ rfl
  case isAbstract => exact Field.draws_of_plain (fun v ↦ .plain _) fun _ _ ↦ rfl
  case body =>
    exact Field.draws_of_put (Decode.draws_optional MethodBody.draws_decode)
      fun _ _ ↦ Multiset.le_add_left _ _
  case attributes =>
    exact Field.draws_of_plain (Decode.draws_list_plain Attribute.draws_decode) fun _ _ ↦ rfl

end MethodDef

namespace PropertyDef

/-- A property draws the identities in its accessors. -/
theorem draws_decode (v : Json) : Draws 0 ids (decode v) := by
  have accessor := Decode.draws_optional MethodDef.draws_decode
  refine Decode.Record.draws ?_ rfl v
  simp only [record, List.forall_mem_cons, List.not_mem_nil, false_implies, implies_true, and_true]
  refine ⟨?name, ?getter, ?setter⟩
  case name => exact Field.draws_of_plain (fun v ↦ .plain _) fun _ _ ↦ rfl
  case getter => exact Field.draws_of_put accessor fun _ _ ↦ add_le_left _ _ _
  case setter => exact Field.draws_of_put accessor fun _ _ ↦ add_le_right _ _ _

end PropertyDef

namespace TypeDef

/-- A type draws the identities in its methods and properties. -/
theorem draws_decode (v : Json) : Draws 0 ids (decode v) := by
  refine Decode.Record.draws ?_ rfl v
  simp only [record, List.forall_mem_cons, List.not_mem_nil, false_implies, implies_true, and_true]
  refine ⟨?fullName, ?base, ?interfaces, ?methods, ?properties, ?attributes⟩
  case fullName => exact Field.draws_of_plain (fun v ↦ .plain _) fun _ _ ↦ rfl
  case base =>
    exact Field.draws_of_plain (Decode.draws_optional_plain fun v ↦ .plain _) fun _ _ ↦ rfl
  case interfaces =>
    exact Field.draws_of_plain (Decode.draws_list_plain fun v ↦ .plain _) fun _ _ ↦ rfl
  case methods =>
    exact Field.draws_of_put (Decode.draws_list MethodDef.draws_decode)
      fun _ _ ↦ add_le_left _ _ _
  case properties =>
    exact Field.draws_of_put (Decode.draws_list PropertyDef.draws_decode)
      fun _ _ ↦ add_le_right _ _ _
  case attributes =>
    exact Field.draws_of_plain (Decode.draws_list_plain Attribute.draws_decode) fun _ _ ↦ rfl

/-- A document draws the identities in its types. -/
theorem draws_decodeDocument (v : Json) :
    Draws 0 (fun ds ↦ (ds.map ids).sum) (decodeDocument v) := by
  refine Decode.Record.draws ?_ rfl v
  rw [documentRecord, List.forall_mem_singleton]
  exact Field.draws_of_put (Decode.draws_list draws_decode) fun _ _ ↦ Multiset.le_add_left _ _

end TypeDef

/-! ### What a store holds -/

namespace Store

/-- A definition brings its identities in, and takes those of the one that it replaces out. -/
theorem ids_insert (d : TypeDef) (s : Store) :
    (s.insert d).2.ids + ((s.insert d).1.map TypeDef.ids).getD 0 = s.ids + d.ids :=
  Named.total_set TypeDef.ids s.defs d.fullName d

private theorem ids_insertAll_le (ds : List TypeDef) (s : Store) :
    (insertAll ds s).ids ≤ s.ids + (ds.map TypeDef.ids).sum := by
  induction ds generalizing s with
  | nil => simp [insertAll]
  | cons d rest ih =>
    calc (insertAll rest (s.insert d).2).ids
      _ ≤ (s.insert d).2.ids + (rest.map TypeDef.ids).sum := ih _
      _ ≤ s.ids + d.ids + (rest.map TypeDef.ids).sum := by
        rw [← ids_insert d s]
        exact add_le_add_left (Multiset.le_add_right _ _) _
      _ = s.ids + ((d :: rest).map TypeDef.ids).sum := by
        rw [List.map_cons, List.sum_cons, add_assoc]

/-- The store of a document has identities that were drawn for the document. -/
theorem draws_parse (text : String) (place : Position) (supply : Supply) :
    supply.next ≤ (parse text place supply).2.next ∧
    ∀ events store, (parse text place supply).1 = .ok (events, store) →
      store.ids ≤ supply.issued (parse text place supply).2 := by
  obtain ⟨hle, hids⟩ := Decode.draws_text TypeDef.draws_decodeDocument text supply
  rw [parse]
  rcases h : DecodeM.runText TypeDef.decodeDocument text supply with ⟨e | ds, t⟩
  · rw [DecodeM.outcome_text, h] at hle
    exact ⟨hle, fun _ _ hs ↦ nomatch hs⟩
  · rw [DecodeM.outcome_text, h] at hle hids
    rw [zero_add] at hids
    refine ⟨hle, fun events store hs ↦ ?_⟩
    obtain rfl : (loadAll ds empty).2 = store := congrArg Prod.snd (Except.ok.inj hs)
    rw [loadAll_snd]
    calc (insertAll ds empty).ids
      _ ≤ empty.ids + (ds.map TypeDef.ids).sum := ids_insertAll_le ds empty
      _ = (ds.map TypeDef.ids).sum := zero_add _
      _ ≤ supply.issued t := hids ds rfl

end Store

end Cil
