import Cil.Proofs.Metadata.Holdings

/-!
# Code in the place of a body

A caller gets at the code of a decoded value by putting other code into its place. Wherever the
place is, no identity comes in or is lost: `Swap.Conserves` is kept by every way down to a body.
-/

namespace Cil

/-- Puts code into a place of a value, and returns the code that was there. Without such a place
the code itself is returned. -/
abbrev Swap (α : Type) := Code → α → Code × α

namespace Swap

variable {α : Type} {ids : α → Multiset InstrId} {swap : Swap α}

/-- A place in a value that there may be. -/
def optional (swap : Swap α) : Swap (Option α)
  | c, none => (c, none)
  | c, some a => ((swap c a).1, some (swap c a).2)

/-- A place in the item of this index. -/
def item (swap : Swap α) : Nat → Swap (List α)
  | _, c, [] => (c, [])
  | 0, c, a :: rest => ((swap c a).1, (swap c a).2 :: rest)
  | index + 1, c, a :: rest => ((swap.item index c rest).1, a :: (swap.item index c rest).2)

/-- The code that is returned and the new value have the identities of the code that was put in
and the former value. -/
def Conserves (ids : α → Multiset InstrId) (swap : Swap α) : Prop :=
  ∀ c a, (swap c a).1.ids + ids (swap c a).2 = c.ids + ids a

namespace Conserves

private theorem optional (h : swap.Conserves ids) :
    swap.optional.Conserves fun o ↦ (o.map ids).getD 0 := by
  intro c o
  cases o with
  | none => rfl
  | some a => exact h c a

private theorem item (h : swap.Conserves ids) (index : Nat) :
    (swap.item index).Conserves fun l ↦ (l.map ids).sum := by
  intro c l
  induction l generalizing index with
  | nil => cases index <;> rfl
  | cons a rest ih =>
    cases index with
    | zero =>
      simp only [Swap.item, List.map_cons, List.sum_cons]
      rw [← add_assoc, h c a, add_assoc]
    | succ index =>
      have hrest := ih index
      simp only [Swap.item, List.map_cons, List.sum_cons] at hrest ⊢
      rw [add_left_comm, hrest, add_left_comm]

end Conserves

end Swap

/-! ### Places in metadata -/

namespace MethodBody

/-- The code of a body. -/
def swap : Swap MethodBody := fun c b ↦ (b.code, ⟨c⟩)

private theorem conserves_swap :
    swap.Conserves fun b ↦ b.code.ids := fun c b ↦ add_comm b.code.ids c.ids

end MethodBody

namespace MethodDef

/-- The code of a method. -/
def swap : Swap MethodDef := fun c m ↦
  let (code, body) := MethodBody.swap.optional c m.body
  (code, { m with body })

private theorem conserves_swap : swap.Conserves ids :=
  fun c m ↦ MethodBody.conserves_swap.optional c m.body

end MethodDef

/-- A member of a type that has code. -/
inductive Member
  | method (index : Nat)
  | getter (index : Nat)
  | setter (index : Nat)

namespace PropertyDef

/-- The code of the getter. -/
def swapGetter : Swap PropertyDef := fun c p ↦
  let (code, getter) := MethodDef.swap.optional c p.getter
  (code, { p with getter })

/-- The code of the setter. -/
def swapSetter : Swap PropertyDef := fun c p ↦
  let (code, setter) := MethodDef.swap.optional c p.setter
  (code, { p with setter })

private theorem conserves_swapGetter : swapGetter.Conserves ids := by
  intro c p
  have h := MethodDef.conserves_swap.optional c p.getter
  rw [ids, ids, ← add_assoc, ← add_assoc, ← h]
  rfl

private theorem conserves_swapSetter : swapSetter.Conserves ids := by
  intro c p
  have h := MethodDef.conserves_swap.optional c p.setter
  rw [ids, ids, add_left_comm, add_left_comm c.ids, ← h]
  rfl

end PropertyDef

namespace TypeDef

/-- The code of a member. -/
def swap : Member → Swap TypeDef
  | .method index, c, d =>
    let (code, methods) := MethodDef.swap.item index c d.methods
    (code, { d with methods })
  | .getter index, c, d =>
    let (code, properties) := PropertyDef.swapGetter.item index c d.properties
    (code, { d with properties })
  | .setter index, c, d =>
    let (code, properties) := PropertyDef.swapSetter.item index c d.properties
    (code, { d with properties })

/-- A type conserves its identities, whichever member is meant. -/
theorem conserves_swap (m : Member) : (swap m).Conserves ids := by
  intro c d
  cases m with
  | method index =>
    have h := MethodDef.conserves_swap.item index c d.methods
    rw [ids, ids, ← add_assoc, ← add_assoc, ← h]
    rfl
  | getter index =>
    have h := PropertyDef.conserves_swapGetter.item index c d.properties
    rw [ids, ids, add_left_comm, add_left_comm c.ids, ← h]
    rfl
  | setter index =>
    have h := PropertyDef.conserves_swapSetter.item index c d.properties
    rw [ids, ids, add_left_comm, add_left_comm c.ids, ← h]
    rfl

end TypeDef

/-! ### Values in hand -/

/-- A value with code that was read from a text. -/
inductive Holding
  | body (body : MethodBody)
  | method (method : MethodDef)
  | property (property : PropertyDef)
  | type (type : TypeDef)
  | document (types : List TypeDef)

namespace Holding

/-- What a text is read as. -/
inductive Kind
  | body
  | method
  | property
  | type
  | document

/-- Decodes a value of a kind. -/
def Kind.decode : Kind → Json → DecodeM Holding
  | .body, v => Holding.body <$> MethodBody.decode v
  | .method, v => Holding.method <$> MethodDef.decode v
  | .property, v => Holding.property <$> PropertyDef.decode v
  | .type, v => Holding.type <$> TypeDef.decode v
  | .document, v => Holding.document <$> TypeDef.decodeDocument v

/-- The identities in a value. -/
def ids : Holding → Multiset InstrId
  | .body b => b.code.ids
  | .method m => m.ids
  | .property p => p.ids
  | .type d => d.ids
  | .document ds => (ds.map TypeDef.ids).sum

/-- A value of any kind draws its identities. -/
theorem draws_decode (k : Kind) (v : Json) : DecodeM.Draws 0 ids (k.decode v) := by
  cases k with
  | body => exact (MethodBody.draws_decode v).map fun _ ↦ le_refl _
  | method => exact (MethodDef.draws_decode v).map fun _ ↦ le_refl _
  | property => exact (PropertyDef.draws_decode v).map fun _ ↦ le_refl _
  | type => exact (TypeDef.draws_decode v).map fun _ ↦ le_refl _
  | document => exact (TypeDef.draws_decodeDocument v).map fun _ ↦ le_refl _

/-- The code of a member of the type of this index, or of the value itself where it is less. -/
def swap (index : Nat) (m : Member) : Swap Holding
  | c, .body b => ((MethodBody.swap c b).1, .body (MethodBody.swap c b).2)
  | c, .method d => ((MethodDef.swap c d).1, .method (MethodDef.swap c d).2)
  | c, .property p =>
    match m with
    | .setter _ => ((PropertyDef.swapSetter c p).1, .property (PropertyDef.swapSetter c p).2)
    | _ => ((PropertyDef.swapGetter c p).1, .property (PropertyDef.swapGetter c p).2)
  | c, .type d => ((TypeDef.swap m c d).1, .type (TypeDef.swap m c d).2)
  | c, .document ds =>
    (((TypeDef.swap m).item index c ds).1, .document ((TypeDef.swap m).item index c ds).2)

/-- A value of any kind conserves its identities. -/
theorem conserves_swap (index : Nat) (m : Member) : (swap index m).Conserves ids := by
  intro c h
  cases h with
  | body b => exact MethodBody.conserves_swap c b
  | method d => exact MethodDef.conserves_swap c d
  | property p =>
    cases m with
    | setter => exact PropertyDef.conserves_swapSetter c p
    | _ => exact PropertyDef.conserves_swapGetter c p
  | type d => exact TypeDef.conserves_swap m c d
  | document ds => exact (TypeDef.conserves_swap m).item index c ds

end Holding

end Cil
