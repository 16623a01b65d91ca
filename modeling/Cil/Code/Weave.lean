import Cil.Log
import Cil.Options.Basic

/-!
# Batch insertion

A weaver inserts whole batches next to an anchor, one instruction at a time and looking the
anchor up again for each. After the anchor the batch goes in from its last item to its first, so
that the batch stands in its own order on either side. Nothing takes back what was inserted
before a failure.
-/

namespace Cil

/-- Code in the hands of a pass that inserts batches; `IlProcessor`. -/
structure Weaver where
  code : Code
  /-- The code is laid out anew after each batch. -/
  relayout : Bool
  /-- What the pass has told so far. -/
  log : List LogEvent
  deriving DecidableEq, Repr

namespace Weaver

/-- Takes up code and leaves its offsets alone; `IlProcessor.new`. -/
def ofCode (code : Code) : Weaver := { code, relayout := false, log := [] }

/-- Takes up code under the given options; `IlProcessor.with_options`. -/
def withOptions (code : Code) (options : Options) : Weaver :=
  { code, relayout := options.relayoutAfterInsert, log := [] }

/-- The order in which the items of a batch go in. -/
def feed (side : Code.Side) (batch : List Instr) : List Instr :=
  match side with
  | .before => batch
  | .after => batch.reverse

/-- Inserts items one by one directly next to the anchor, up to the first failure; the loop of
`IlProcessor.insert_before` and `IlProcessor.insert_after`. -/
def insertEach (side : Code.Side) (anchor : InstrId) :
    List Instr → Code → Except Error Unit × Code
  | [], c => (.ok (), c)
  | i :: rest, c => match c.insert side anchor i with
    | .error e => (.error e, c)
    | .ok c => insertEach side anchor rest c

/-- The code as a pass leaves it after a batch; `IlProcessor.finish`. -/
def settle (w : Weaver) (code : Code) : Code := if w.relayout then code.relayout else code

/-- Inserts a batch next to the anchor; `IlProcessor.insert_before` and
`IlProcessor.insert_after`. -/
def insert (side : Code.Side) (anchor : InstrId) (batch : List Instr) (w : Weaver) :
    Except Error Unit × Weaver :=
  match insertEach side anchor (feed side batch) w.code with
  | (.error e, code) => (.error e, { w with code })
  | (.ok (), code) => (.ok (), { w with
      code := w.settle code
      log := w.log ++ [.inserted batch.length side anchor] })

end Weaver

end Cil
