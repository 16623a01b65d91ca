import Cil.Proofs.Session.Ledger

/-!
# Tasks of a session

All that a caller does with bodies and with instructions in hand. None but copying a whole body
makes an identity stand twice: `Session.Task.carries`.
-/

namespace Cil.Session

/-- Obtains instructions one after the other, without those that there are not. -/
def obtainAll (name : String) : List Source → SessionM (List Instr)
  | [] => return []
  | source :: rest => do
    match ← obtain name source with
    | .error _ => obtainAll name rest
    | .ok i => return i :: (← obtainAll name rest)

/-- What a caller does with bodies and with instructions in hand. -/
inductive Task
  | op (o : Op)
  /-- Reads an instruction and takes it in hand. -/
  | decode (text key : String)
  /-- Collects instructions into a body. -/
  | collect (body : String) (sources : List Source)
  /-- Reads a body. -/
  | read (body text : String)
  /-- Inserts an instruction next to an anchor. -/
  | insert (body : String) (side : Code.Side) (anchor : InstrId) (source : Source)
  /-- Inserts a batch next to an anchor. -/
  | weave (body : String) (side : Code.Side) (anchor : InstrId) (sources : List Source)
    (options : Option Options)
  /-- Lays a body out anew. -/
  | relayout (body : String)

namespace Task

/-- Performs a task. What goes wrong has no other effect than it has had. -/
def perform : Task → SessionM Unit
  | .op o => o.perform
  | .decode text key => do
    match ← draw (DecodeM.runText Instr.decode text) with
    | .error _ => return ()
    | .ok i => keep key i
  | .collect body sources => do
    setBody body ⟨← obtainAll body sources⟩
  | .read body text => do
    let _ ← Session.read body text
  | .insert body side anchor source => do
    match ← obtain body source with
    | .error _ => return ()
    | .ok i => let _ ← Session.insert body side anchor i
  | .weave body side anchor sources options => do
    let _ ← Session.weave body side anchor (← obtainAll body sources) options
  | .relayout body => Session.relayout body

/-- The task copies a whole body. -/
def copies : Task → Bool
  | .op (.copy _ _) => true
  | _ => false

end Task

private theorem carries_obtainAll (name : String) (sources : List Source) :
    Carries 0 Instr.ids (obtainAll name sources) := by
  induction sources with
  | nil => exact .pure (le_refl _)
  | cons source rest ih =>
    refine (carries_obtain name source).bind fun r ↦ ?_
    cases r with
    | error e => exact ih
    | ok i =>
      refine (ih.beside {i.id}).bind fun l ↦ .pure ?_
      rw [Instr.ids_cons]

private theorem Carries.handle {ε : Type} {x : SessionM (Except ε Instr)}
    {f : Except ε Instr → SessionM Unit} (hx : Carries 0 idOf x)
    (herror : ∀ e, Carries 0 (fun _ ↦ 0) (f (.error e)))
    (hok : ∀ i, Carries {i.id} (fun _ ↦ 0) (f (.ok i))) : Carries 0 (fun _ ↦ 0) (x >>= f) := by
  refine hx.bind fun r ↦ ?_
  cases r with
  | error e => exact herror e
  | ok i => exact hok i

/-- No task but copying a body makes an identity stand twice. -/
theorem Task.carries {t : Task} (h : ¬ t.copies) : Carries 0 (fun _ ↦ 0) t.perform := by
  have nothing : Carries 0 (fun _ : Unit ↦ 0) (pure ()) := .pure (le_refl 0)
  cases t with
  | op o =>
    cases o with
    | hold body source key =>
      exact (carries_obtain body source).handle (fun _ ↦ nothing) (carries_keep key)
    | emit body opcode => exact (carries_emit body opcode).bind fun _ ↦ nothing
    | push body source =>
      exact (carries_obtain body source).handle (fun _ ↦ nothing) (carries_push body)
    | copy body target => exact absurd rfl h
    | remove body id key =>
      exact (carries_remove body id).handle (fun _ ↦ nothing) (carries_keep key)
  | decode text key =>
    have hd : Carries 0 idOf (draw (DecodeM.runText Instr.decode text)) := .draw fun p ↦ by
      obtain ⟨hle, hids⟩ := Decode.draws_text Instr.draws_decode text p
      rw [DecodeM.outcome_text, zero_add] at hids
      rw [DecodeM.outcome_text] at hle
      refine ⟨hle, ?_⟩
      rcases hr : (DecodeM.runText Instr.decode text p).1 with e | i
      · exact Multiset.zero_le _
      · exact hids i hr
    exact hd.handle (fun _ ↦ nothing) (carries_keep key)
  | collect body sources =>
    refine (carries_obtainAll body sources).bind fun l s ↦ .setBody ?_
    rw [zero_add]
    exact Multiset.le_add_right _ _
  | read body text => exact (carries_read body text).bind fun _ ↦ nothing
  | insert body side anchor source =>
    refine (carries_obtain body source).handle (fun _ ↦ nothing) fun i ↦ ?_
    exact (carries_insert body side anchor i).bind fun _ ↦ nothing
  | weave body side anchor sources options =>
    refine (carries_obtainAll body sources).bind fun batch ↦ ?_
    exact (carries_weave body side anchor batch options).bind fun _ ↦ nothing
  | relayout body => exact carries_relayout body

end Cil.Session
