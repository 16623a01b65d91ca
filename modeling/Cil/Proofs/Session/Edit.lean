import Cil.Proofs.Code.Ordered
import Cil.Proofs.Weave.Atomicity
import Cil.Session

/-!
# Edits that leave offsets to the layout

A caller that never states an offset of its own: it emits, removes, copies bodies, lays them out,
and inserts batches that are laid out at once. Every body is then in order of offsets at any time,
also behind a call that failed: `Session.ordered_of_edits`.
-/

namespace Cil

open Code (Ordered)

/-- Inserting a batch that is laid out at once keeps code in order, also when it is refused. -/
theorem Weaver.ordered_insert {w : Weaver} (hr : w.relayout = true) (h : Ordered w.code.toList)
    (side : Code.Side) (anchor : InstrId) (batch : List Instr) :
    Ordered (w.insert side anchor batch).2.code.toList := by
  have hs (c : Code) : w.settle c = c.relayout := by rw [settle, hr, if_pos rfl]
  obtain ⟨_, _, _, -, hi⟩ | ⟨-, -, hi⟩ | ⟨-, -, hi⟩ := insert_cases w side anchor batch
  · rw [hi, hs]
    exact Code.ordered_relayout _
  · rw [hi, hs]
    exact Code.ordered_relayout _
  · rw [hi]
    exact h

namespace Session

/-- An operation of a caller that states no offsets. -/
inductive Edit
  /-- Appends a new instruction to a body. -/
  | emit (body : String) (opcode : Opcode)
  /-- Takes an instruction out of a body. -/
  | remove (body : String) (id : InstrId)
  /-- Lays a body out anew. -/
  | relayout (body : String)
  /-- Copies a body. -/
  | copy (body target : String)
  /-- Inserts a batch and lays the body out anew, whatever the options say about that. -/
  | weave (body : String) (side : Code.Side) (anchor : InstrId) (batch : List Instr)
    (options : Options)

/-- Performs an edit. -/
def Edit.perform : Edit → SessionM Unit
  | .emit body opcode => do
    let _ ← Session.emit body opcode
  | .remove body id => do
    let _ ← Session.remove body id
  | .relayout body => Session.relayout body
  | .copy body target => copyBody body target
  | .weave body side anchor batch options => do
    let options := { options with relayoutAfterInsert := true }
    let _ ← Session.weave body side anchor batch (some options)

/-- The session after some edits. -/
def runEdits : List Edit → Session → Session
  | [], s => s
  | e :: rest, s => runEdits rest (e.perform.run s).2

private theorem run_remove (name : String) (id : InstrId) (s : Session) :
    (Session.remove name id).run s = match (s.body name).remove id with
      | .error e => (.error e, s)
      | .ok (i, rest) => (.ok i, { s with bodies := s.bodies.set name rest }) := by
  cases hr : (s.body name).remove id with
  | error e =>
    simp only [Session.remove, StateT.run_bind, StateT.run_get, pure_bind, hr]
    rfl
  | ok found =>
    simp only [Session.remove, StateT.run_bind, StateT.run_get, pure_bind, hr]
    rfl

/-- All bodies are in order. -/
def InOrder (s : Session) : Prop := ∀ name, Ordered (s.body name).toList

private theorem inOrder_start : start.InOrder := fun _ ↦ ⟨by simp [start, body, Code.empty], .nil⟩

namespace InOrder

variable {s t : Session} {name : String} {code : Code}

private theorem of_set (h : s.InOrder) (ht : t.bodies = s.bodies.set name code)
    (hc : Ordered code.toList) : t.InOrder := by
  intro other
  rw [body, ht, Named.get?_set]
  split
  · exact hc
  · exact h other

/-- An edit keeps all bodies in order. -/
theorem perform (h : s.InOrder) (e : Edit) : (e.perform.run s).2.InOrder := by
  cases e with
  | emit body opcode => exact h.of_set rfl ((h body).emit opcode s.supply)
  | remove body id =>
    have hp : ((Edit.remove body id).perform.run s).2 = ((Session.remove body id).run s).2 := rfl
    rw [hp, run_remove]
    split
    next => exact h
    next i rest hr => exact h.of_set rfl ((h body).remove hr)
  | relayout body => exact h.of_set rfl (Code.ordered_relayout (s.body body))
  | copy body target => exact h.of_set rfl (h body)
  | weave body side anchor batch options =>
    exact h.of_set rfl (Weaver.ordered_insert rfl (h body) side anchor batch)

/-- Edits keep all bodies in order. -/
theorem runEdits (h : s.InOrder) (edits : List Edit) : (runEdits edits s).InOrder := by
  induction edits generalizing s with
  | nil => exact h
  | cons e rest ih => exact ih (h.perform e)

end InOrder

/-- Whatever edits were made, the offsets of every body ascend from zero on up to the greatest
offset. So below that no two instructions share an offset, and what is found before an offset is
the nearest one before it. -/
theorem ordered_of_edits (edits : List Edit) (name : String) :
    let l := ((runEdits edits start).body name).toList
    Ordered l ∧
    (∀ offset < Int32.maxValue, l.countP (·.offset = offset) ≤ 1) ∧
    ∀ offset,
      (∃ i ∈ l, Code.beforeOffset offset l = .ok i ∧ i.offset < offset ∧
        ∀ j ∈ l, j.offset < offset → j.offset ≤ i.offset) ∨
      (Code.beforeOffset offset l = .error (.noInstruction .before offset) ∧
        ∀ j ∈ l, ¬ j.offset < offset) := by
  intro l
  have h : Ordered l := inOrder_start.runEdits edits name
  exact ⟨h, fun offset ho ↦ h.countP_le_one ho, h.beforeOffset_cases⟩

/-- A body outgrows the offsets; its copy loses an instruction, gets a batch with an offset of its
own, grows further, and refuses a batch. -/
def outgrowing : List Edit := [
  .emit "body" (.other "blob" 2147483647),
  .emit "body" .nop,
  .emit "body" .ret,
  .copy "body" "copy",
  .remove "copy" ⟨2⟩,
  .weave "copy" .before ⟨1⟩ [⟨⟨9⟩, -5, .dup⟩] .default,
  .emit "copy" .pop,
  .weave "copy" .after ⟨7⟩ [⟨⟨8⟩, 3, .pop⟩] .default]

/-- Two instructions share the greatest offset, and none any other one. -/
theorem ordered_of_edits_outgrowing :
    let l := ((runEdits outgrowing start).body "copy").toList
    l = [⟨⟨9⟩, 0, .dup⟩, ⟨⟨1⟩, 1, .other "blob" 2147483647⟩, ⟨⟨3⟩, 2147483647, .ret⟩,
      ⟨⟨4⟩, 2147483647, .pop⟩] ∧
    (1 : Int32) < Int32.maxValue ∧ l.countP (·.offset = 1) ≤ 1 :=
  ⟨by decide, by decide, (ordered_of_edits outgrowing "copy").2.1 1 (by decide)⟩

end Session

end Cil
