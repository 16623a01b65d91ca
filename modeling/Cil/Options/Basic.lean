import Cil.Decode.Record

/-!
# Weaving options

The settings of a weaving pass. Each has a default, so that a text names only what it overrides.
-/

namespace Cil

/-- The settings of a weaving pass; `WeaveOptions`. -/
structure Options where
  /-- The simple name of the attribute that marks an asynchronous method. -/
  asyncAttribute : String
  /-- The simple name of the interface of an asynchronous state machine. -/
  asyncInterface : String
  /-- Offsets are laid out anew after each batch insertion. -/
  relayoutAfterInsert : Bool
  deriving DecidableEq, Repr

namespace Options

/-- The settings where nothing else is said; `WeaveOptions.default`. -/
def default : Options where
  asyncAttribute := "AsyncStateMachineAttribute"
  asyncInterface := "IAsyncStateMachine"
  relayoutAfterInsert := false

instance : Inhabited Options := ⟨default⟩

/-- The record form of options. -/
def record : Decode.Record (Except DecodeError) Options where
  title := "struct WeaveOptions"
  blank := default
  fields := [
    .defaulted "async_state_machine_attribute" Decode.string
      fun s o ↦ { o with asyncAttribute := s },
    .defaulted "async_state_machine_interface" Decode.string
      fun s o ↦ { o with asyncInterface := s },
    .defaulted "recompute_offsets_after_insert" Decode.bool
      fun b o ↦ { o with relayoutAfterInsert := b }]

/-- Decodes options. -/
def decode : Json → Except DecodeError Options := record.decode

end Options

end Cil
