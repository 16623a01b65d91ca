import Cil.Code.Decode
import Cil.Code.Weave
import Cil.Named

/-!
# Sessions

A weaving session: method bodies by name, instructions that are in no body by name, and the
supply from which all of them have their identities. Its operations are the ways in which
instructions come to be, move and disappear. Whatever fails keeps the identities it has used.
-/

namespace Cil

/-- The state of a session. -/
structure Session where
  supply : Supply
  /-- The bodies at work, by name. -/
  bodies : Named Code
  /-- The instructions in hand, by name. -/
  loose : Named Instr

/-- A step of a session. -/
abbrev SessionM := StateM Session

/-- Where an instruction comes from. -/
inductive Source
  /-- It is made anew. -/
  | made (offset : Int32) (opcode : Opcode)
  /-- It is taken out of hand. -/
  | taken (name : String)
  /-- It is a copy of one in hand. -/
  | copied (name : String)
  /-- It is a copy of one in the body. -/
  | copiedFrom (id : InstrId)

/-- Why there is no such instruction. -/
inductive Refusal
  | neverIssued
  | notInHand
  | notInBody
  deriving DecidableEq, Repr

namespace Session

/-- The session in which nothing has happened. -/
def start : Session := { supply := .full, bodies := .empty, loose := .empty }

/-- The body of this name, which is without instructions at first. -/
def body (s : Session) (name : String) : Code := (s.bodies.get? name).getD .empty

/-- The identity has been handed out in this session. -/
def knows (s : Session) (id : InstrId) : Bool := s.supply.hasIssued id

/-- Draws on the supply. -/
def draw {α : Type} (f : Supply → α × Supply) : SessionM α :=
  modifyGet fun s ↦
    let (a, supply) := f s.supply
    (a, { s with supply })

/-- Puts code in the place of a body. -/
def setBody (name : String) (code : Code) : SessionM Unit :=
  modify fun s ↦ { s with bodies := s.bodies.set name code }

/-- Names a body, so that it is there from now on. -/
def openBody (name : String) : SessionM Unit := do
  let s ← get
  setBody name (s.body name)

/-- Takes an instruction in hand, in place of one of the same name. -/
def keep (name : String) (i : Instr) : SessionM Unit :=
  modify fun s ↦ { s with loose := s.loose.set name i }

/-- Obtains an instruction, with the body of this name at work. -/
def obtain (name : String) : Source → SessionM (Except Refusal Instr)
  | .made offset opcode => .ok <$> draw (Instr.create offset opcode)
  | .taken key => do
    let s ← get
    match s.loose.get? key with
    | none => return .error .notInHand
    | some i =>
      set { s with loose := s.loose.erase key }
      return .ok i
  | .copied key => do
    match (← get).loose.get? key with
    | none => return .error .notInHand
    | some i => .ok <$> draw i.duplicate
  | .copiedFrom id => do
    let s ← get
    if s.knows id then
      match (s.body name).toList.find? (·.id == id) with
      | none => return .error .notInBody
      | some i => .ok <$> draw i.duplicate
    else return .error .neverIssued

/-- Appends a new instruction behind the last one of a body. -/
def emit (name : String) (opcode : Opcode) : SessionM Instr := do
  let code := (← get).body name
  let (i, code) ← draw (code.emit opcode)
  setBody name code
  return i

/-- Appends an instruction to a body as it is. -/
def push (name : String) (i : Instr) : SessionM Unit := do
  setBody name (((← get).body name).push i)

/-- Reads a body from a text; a text that cannot be read leaves it alone. -/
def read (name text : String) : SessionM (Except DecodeError Unit) := do
  match ← draw (DecodeM.runText Code.decode text) with
  | .error e => return .error e
  | .ok code =>
    setBody name code
    return .ok ()

/-- Copies a body, whose instructions keep their identities. -/
def copyBody (name target : String) : SessionM Unit := do
  setBody target ((← get).body name)

/-- Inserts an instruction next to an anchor. -/
def insert (name : String) (side : Code.Side) (anchor : InstrId) (i : Instr) :
    SessionM (Except Error Unit) := do
  match ((← get).body name).insert side anchor i with
  | .error e => return .error e
  | .ok code =>
    setBody name code
    return .ok ()

/-- Inserts a batch next to an anchor, and yields what is told about it. Without options offsets
are left alone. -/
def weave (name : String) (side : Code.Side) (anchor : InstrId) (batch : List Instr)
    (options : Option Options) : SessionM (Except Error (List LogEvent)) := do
  let code := (← get).body name
  let weaver := match options with
    | none => Weaver.ofCode code
    | some options => Weaver.withOptions code options
  let (result, weaver) := weaver.insert side anchor batch
  setBody name weaver.code
  return result.map fun _ ↦ weaver.log

/-- Takes an instruction out of a body. -/
def remove (name : String) (id : InstrId) : SessionM (Except Error Instr) := do
  match ((← get).body name).remove id with
  | .error e => return .error e
  | .ok (i, code) =>
    setBody name code
    return .ok i

/-- Lays a body out anew. -/
def relayout (name : String) : SessionM Unit := do
  setBody name ((← get).body name).relayout

/-- Two bodies have the same instructions; a name that was never used has no body. -/
def sameBody (name other : String) (s : Session) : Bool :=
  match s.bodies.get? other with
  | none => false
  | some code => s.body name == code

end Session

end Cil
