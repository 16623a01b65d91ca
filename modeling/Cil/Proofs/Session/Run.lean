import Cil.Session

/-!
# Runs of a session

What a caller can do with bodies and with the instructions in hand, one operation after another
from the session in which nothing has happened.
-/

namespace Cil.Session

/-- An operation of a caller. One that finds no instruction does nothing else. -/
inductive Op
  /-- Takes an instruction in hand, with a body at work. -/
  | hold (body : String) (source : Source) (key : String)
  /-- Appends a new instruction to a body. -/
  | emit (body : String) (opcode : Opcode)
  /-- Appends an instruction to a body as it is. -/
  | push (body : String) (source : Source)
  /-- Copies a body. -/
  | copy (body target : String)
  /-- Takes an instruction out of a body and in hand. -/
  | remove (body : String) (id : InstrId) (key : String)

/-- Performs an operation. -/
def Op.perform : Op → SessionM Unit
  | .hold body source key => do
    match ← obtain body source with
    | .error _ => return ()
    | .ok i => keep key i
  | .emit body opcode => do
    let _ ← Session.emit body opcode
  | .push body source => do
    match ← obtain body source with
    | .error _ => return ()
    | .ok i => Session.push body i
  | .copy body target => copyBody body target
  | .remove body id key => do
    match ← Session.remove body id with
    | .error _ => return ()
    | .ok i => keep key i

/-- The session after some operations. -/
def run : List Op → Session → Session
  | [], s => s
  | op :: rest, s => run rest (op.perform.run s).2

end Cil.Session
