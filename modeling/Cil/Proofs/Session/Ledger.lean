import Cil.Proofs.Decode.Draws
import Cil.Proofs.Named
import Cil.Proofs.Session.Edit
import Cil.Proofs.Session.Run
import Mathlib.Data.Multiset.OrderedMonoid

/-!
# Where the identities of a session are

The instructions of a session are in its bodies, in hand, or on their way from one to the other.
An operation is given those on their way, and what it yields, together with what the session then
has, are no others than what was there, what it was given, and what it took from the supply:
`Session.Carries`. Copying a whole body is the one operation that does not keep to this.
-/

namespace Cil

/-! ### Code -/

namespace Instr

private theorem ids_append (l r : List Instr) : ids (l ++ r) = ids l + ids r := by
  rw [ids, List.map_append, ← Multiset.coe_add, ids, ids]

/-- An instruction in front adds its identity. -/
theorem ids_cons (i : Instr) (l : List Instr) : ids (i :: l) = {i.id} + ids l := ids_append [i] l

private theorem ids_of_perm {l r : List Instr} (h : l.Perm r) : ids l = ids r :=
  Multiset.coe_eq_coe.mpr (h.map _)

end Instr

namespace Code

variable {c d : Code}

private theorem ids_push (i : Instr) (c : Code) : (c.push i).ids = c.ids + {i.id} :=
  Instr.ids_append c.toList [i]

private theorem ids_relayout (c : Code) : c.relayout.ids = c.ids :=
  congrArg Multiset.ofList (map_id_layOut 0 c.toList)

private theorem ids_place (side : Side) (front : List Instr) (found : Instr)
    (items back : List Instr) :
    Instr.ids (side.place front found items back) =
      Instr.ids (front ++ found :: back) + Instr.ids items := by
  rw [Instr.ids_of_perm (side.place_perm front found items back), Instr.ids_append]

/-- An insertion adds the identity of what is inserted. -/
theorem ids_insert {side : Side} {anchor : InstrId} {i : Instr}
    (h : c.insert side anchor i = .ok d) : d.ids = c.ids + {i.id} := by
  rw [insert] at h
  split at h
  next => cases h
  next front found back hs =>
    cases h
    rw [ids, ids, (splitAt?_eq_some_iff.mp hs).1]
    exact ids_place side front found [i] back

/-- What is removed has its identity out of the code. -/
theorem ids_remove {id : InstrId} {i : Instr} (h : c.remove id = .ok (i, d)) :
    {i.id} + d.ids = c.ids := by
  obtain ⟨front, back, hl, -, -, rfl⟩ := remove_eq_ok_iff.mp h
  rw [ids, ids, hl, ← Instr.ids_cons]
  exact Instr.ids_of_perm List.perm_middle.symm

end Code

namespace Weaver

/-- A batch adds the identities of its items, or none if it is refused. -/
theorem ids_insert_le (w : Weaver) (side : Code.Side) (anchor : InstrId) (batch : List Instr) :
    (w.insert side anchor batch).2.code.ids ≤ w.code.ids + Instr.ids batch := by
  have hs (c : Code) : (w.settle c).ids = c.ids := by
    rw [settle]
    split
    · exact c.ids_relayout
    · rfl
  obtain ⟨front, found, back, h, hi⟩ | ⟨-, -, hi⟩ | ⟨-, -, hi⟩ := insert_cases w side anchor batch
  · rw [hi, hs, Code.ids, Code.ids_place, Code.ids, h.eq_append,
      Instr.ids_of_perm (side.arrange_perm anchor batch)]
  · rw [hi, hs]
    exact Multiset.le_add_right _ _
  · rw [hi]
    exact Multiset.le_add_right _ _

end Weaver

/-! ### Sessions -/

namespace Session

variable {α β ε : Type}

/-- The identities of all instructions, in bodies and in hand. -/
def ids (s : Session) : Multiset InstrId := s.bodies.total Code.ids + s.loose.total fun i ↦ {i.id}

variable {s t : Session} {given held : Multiset InstrId}

/-- Where a body gets code, its identities count instead of those of the former code. -/
theorem ids_setBody_le {name : String} {code : Code} (hb : t.bodies = s.bodies.set name code)
    (hl : t.loose = s.loose) (h : held + code.ids ≤ given + (s.body name).ids) :
    held + t.ids ≤ given + s.ids := by
  have hbody : s.bodies.amountAt Code.ids name = (s.body name).ids := by
    rw [Named.amountAt, body]
    cases s.bodies.get? name <;> rfl
  have hset := s.bodies.total_set Code.ids name code
  rw [hbody] at hset
  rw [ids, hb, hl]
  apply le_of_add_le_add_right (a := (s.body name).ids)
  calc held + (Named.total _ _ + Named.total _ _) + (s.body name).ids
    _ = held + ((s.bodies.set name code).total Code.ids + (s.body name).ids) +
          s.loose.total fun i ↦ {i.id} := by abel
    _ = held + code.ids + s.ids := by
      rw [hset, ids]
      abel
    _ ≤ given + (s.body name).ids + s.ids := add_le_add_left h _
    _ = given + s.ids + (s.body name).ids := add_right_comm _ _ _

private theorem ids_keep_le {name : String} {i : Instr} (hb : t.bodies = s.bodies)
    (hl : t.loose = s.loose.set name i) : t.ids ≤ {i.id} + s.ids := by
  have hset := s.loose.total_set_le (fun i ↦ ({i.id} : Multiset InstrId)) name i
  rw [ids, ids, hb, hl, add_comm ({i.id} : Multiset InstrId), add_assoc]
  exact add_le_add_right hset _

private theorem ids_erase {name : String} {i : Instr} (hi : s.loose.get? name = some i)
    (hb : t.bodies = s.bodies) (hl : t.loose = s.loose.erase name) : {i.id} + t.ids = s.ids := by
  have herase := s.loose.total_erase (fun i ↦ ({i.id} : Multiset InstrId)) name
  rw [Named.amountAt_of_get? hi] at herase
  rw [ids, ids, hb, hl, ← herase]
  abel

/-- The identity of an instruction that there may be. -/
def idOf (r : Except ε Instr) : Multiset InstrId :=
  match r with
  | .ok i => {i.id}
  | .error _ => 0

/-- From a session on, the identities of what an operation yields and of what the session then has
are among those that it was given, those of the session, and those that it takes from the supply. -/
def CarriesFrom (s : Session) (given : Multiset InstrId) (held : α → Multiset InstrId)
    (x : SessionM α) : Prop :=
  s.supply.next ≤ (x.run s).2.supply.next ∧
    held (x.run s).1 + (x.run s).2.ids ≤ given + s.ids + s.supply.issued (x.run s).2.supply

/-- An operation carries identities from every session on. -/
def Carries (given : Multiset InstrId) (held : α → Multiset InstrId) (x : SessionM α) : Prop :=
  ∀ s, CarriesFrom s given held x

section Rules

variable {held : α → Multiset InstrId} {held' : β → Multiset InstrId} {x : SessionM α}

private theorem CarriesFrom.of_still (hs : (x.run s).2.supply = s.supply)
    (h : held (x.run s).1 + (x.run s).2.ids ≤ given + s.ids) : CarriesFrom s given held x := by
  rw [CarriesFrom, hs, Supply.issued_self, add_zero]
  exact ⟨Nat.le_refl _, h⟩

private theorem CarriesFrom.bind {f : α → SessionM β} (hx : CarriesFrom s given held x)
    (hf : ∀ a, Carries (held a) held' (f a)) : CarriesFrom s given held' (x >>= f) := by
  obtain ⟨hle, hids⟩ := hx
  obtain ⟨hle', hids'⟩ := hf (x.run s).1 (x.run s).2
  have hrun : (x >>= f).run s = (f (x.run s).1).run (x.run s).2 := rfl
  rw [CarriesFrom, hrun]
  refine ⟨Nat.le_trans hle hle', ?_⟩
  calc held' ((f (x.run s).1).run (x.run s).2).1 + ((f (x.run s).1).run (x.run s).2).2.ids
    _ ≤ held (x.run s).1 + (x.run s).2.ids + (x.run s).2.supply.issued _ := hids'
    _ ≤ given + s.ids + s.supply.issued (x.run s).2.supply + (x.run s).2.supply.issued _ :=
      add_le_add_left hids _
    _ = given + s.ids + s.supply.issued _ := by rw [add_assoc, Supply.issued_add hle hle']

private theorem CarriesFrom.draw_bind {f : Supply → α × Supply} {g : α → SessionM β}
    (hle : s.supply.next ≤ (f s.supply).2.next)
    (hg : CarriesFrom { s with supply := (f s.supply).2 } (s.supply.issued (f s.supply).2) held'
      (g (f s.supply).1)) :
    CarriesFrom s 0 held' (draw f >>= g) := by
  obtain ⟨hle', hids⟩ := hg
  refine ⟨Nat.le_trans hle hle', hids.trans_eq ?_⟩
  have hrun : (draw f >>= g).run s =
      (g (f s.supply).1).run { s with supply := (f s.supply).2 } := rfl
  rw [hrun, zero_add, ← Supply.issued_add hle hle', ids, ids]
  abel

/-- Code takes the place of a body, and other identities stay beside it. -/
theorem CarriesFrom.setBody {name : String} {code : Code} {rest : Multiset InstrId}
    (h : rest + code.ids ≤ given + (s.body name).ids) :
    CarriesFrom s given (fun _ ↦ rest) (setBody name code) :=
  .of_still rfl (ids_setBody_le rfl rfl h)

namespace Carries

/-- A value at hand has the identities that were given. -/
theorem pure {a : α} (h : held a ≤ given) : Carries given held (Pure.pure a) :=
  fun s ↦ .of_still rfl (add_le_add_left h s.ids)

private theorem look {f : Session → SessionM α} (h : ∀ s, CarriesFrom s given held (f s)) :
    Carries given held (get >>= f) := h

/-- A second step is given the identities of what the first one yields. -/
theorem bind {f : α → SessionM β} (hx : Carries given held x)
    (hf : ∀ a, Carries (held a) held' (f a)) : Carries given held' (x >>= f) :=
  fun s ↦ (hx s).bind hf

/-- What is given stays beside what is carried. -/
theorem beside (hx : Carries 0 held x) (given : Multiset InstrId) :
    Carries given (fun a ↦ given + held a) x := by
  intro s
  obtain ⟨hle, hids⟩ := hx s
  refine ⟨hle, ?_⟩
  rw [zero_add] at hids
  rw [add_assoc, add_assoc]
  exact add_le_add_right hids given

/-- What draws on the supply has the identities that it draws. -/
theorem draw {f : Supply → α × Supply}
    (h : ∀ p, p.next ≤ (f p).2.next ∧ held (f p).1 ≤ p.issued (f p).2) :
    Carries 0 held (Session.draw f) := by
  intro s
  obtain ⟨hle, hids⟩ := h s.supply
  refine ⟨hle, ?_⟩
  rw [zero_add, add_comm s.ids]
  exact add_le_add_left hids s.ids

private theorem create (offset : Int32) (opcode : Opcode) :
    Carries 0 idOf (Except.ok (ε := ε) <$> Session.draw (Instr.create offset opcode)) := by
  have hd : Carries 0 (fun i : Instr ↦ {i.id}) (Session.draw (Instr.create offset opcode)) :=
    draw fun p ↦ ⟨Nat.le_succ _, (Supply.issued_take p).ge⟩
  rw [map_eq_pure_bind]
  exact hd.bind fun i ↦ pure (le_refl _)

end Carries

end Rules

/-! ### Operations -/

/-- A new instruction, or a copy, has the identity that it draws; one in hand leaves it. -/
theorem carries_obtain (name : String) (source : Source) : Carries 0 idOf (obtain name source) := by
  cases source with
  | made offset opcode => exact .create offset opcode
  | taken key =>
    refine .look fun s ↦ ?_
    split
    · exact Carries.pure (le_refl _) s
    next i hi =>
      refine .of_still rfl ?_
      rw [zero_add]
      exact (ids_erase (t := { s with loose := s.loose.erase key }) hi rfl rfl).le
  | copied key =>
    refine .look fun s ↦ ?_
    split
    · exact Carries.pure (le_refl _) s
    · exact Carries.create _ _ s
  | copiedFrom id =>
    refine .look fun s ↦ ?_
    split
    · split
      · exact Carries.pure (le_refl _) s
      · exact Carries.create _ _ s
    · exact Carries.pure (le_refl _) s

/-- What is taken in hand stays there. -/
theorem carries_keep (name : String) (i : Instr) : Carries {i.id} (fun _ ↦ 0) (keep name i) := by
  refine fun s ↦ .of_still rfl ?_
  rw [zero_add]
  exact ids_keep_le rfl rfl

/-- A new instruction goes into a body. -/
theorem carries_emit (name : String) (opcode : Opcode) :
    Carries 0 (fun _ ↦ 0) (emit name opcode) := by
  refine .look fun s ↦ .draw_bind (Nat.le_succ _) ?_
  refine CarriesFrom.bind (.setBody ?_) fun _ ↦ .pure (le_refl 0)
  have hc : ((s.body name).emit opcode s.supply).1.2.ids = (s.body name).ids + {s.supply.take.1} :=
    Code.ids_push _ _
  rw [zero_add, hc, add_comm]
  exact add_le_add_left (Supply.issued_take s.supply).ge _

/-- An instruction goes into a body as it is. -/
theorem carries_push (name : String) (i : Instr) : Carries {i.id} (fun _ ↦ 0) (push name i) := by
  refine .look fun s ↦ .setBody ?_
  rw [zero_add, Code.ids_push, add_comm]

/-- Read code takes the place of a body. -/
theorem carries_read (name text : String) : Carries 0 (fun _ ↦ 0) (read name text) := by
  intro s
  obtain ⟨hle, hids⟩ := Decode.draws_text Code.draws_decode text s.supply
  rw [DecodeM.outcome_text] at hle hids
  rw [zero_add] at hids
  refine .draw_bind hle ?_
  split
  · exact Carries.pure (Multiset.zero_le _) _
  next code hc =>
    refine CarriesFrom.bind (.setBody ?_) fun _ ↦ .pure (le_refl 0)
    rw [zero_add]
    exact (hids code hc).trans (Multiset.le_add_right _ _)

/-- An instruction goes in next to an anchor, or is lost. -/
theorem carries_insert (name : String) (side : Code.Side) (anchor : InstrId) (i : Instr) :
    Carries {i.id} (fun _ ↦ 0) (insert name side anchor i) := by
  refine .look fun s ↦ ?_
  split
  · exact Carries.pure (Multiset.zero_le _) s
  next code hc =>
    refine CarriesFrom.bind (.setBody ?_) fun _ ↦ .pure (le_refl 0)
    rw [zero_add, Code.ids_insert hc, add_comm]

/-- A batch goes in next to an anchor, or is lost. -/
theorem carries_weave (name : String) (side : Code.Side) (anchor : InstrId) (batch : List Instr)
    (options : Option Options) :
    Carries (Instr.ids batch) (fun _ ↦ 0) (weave name side anchor batch options) := by
  refine .look fun s ↦ ?_
  refine CarriesFrom.bind (.setBody ?_) fun _ ↦ .pure (le_refl 0)
  rw [zero_add, add_comm]
  cases options with
  | none => exact Weaver.ids_insert_le (.ofCode (s.body name)) side anchor batch
  | some options =>
    exact Weaver.ids_insert_le (.withOptions (s.body name) options) side anchor batch

/-- An instruction that is taken out of a body is handed on. -/
theorem carries_remove (name : String) (id : InstrId) : Carries 0 idOf (remove name id) := by
  refine .look fun s ↦ ?_
  split
  · exact Carries.pure (le_refl _) s
  next i code hc =>
    refine CarriesFrom.bind (.setBody ?_) fun _ ↦ .pure (le_refl {i.id})
    rw [zero_add, Code.ids_remove hc]

/-- Laying out changes no identity. -/
theorem carries_relayout (name : String) : Carries 0 (fun _ ↦ 0) (relayout name) := by
  refine .look fun s ↦ .setBody ?_
  rw [Code.ids_relayout]

end Session

end Cil
