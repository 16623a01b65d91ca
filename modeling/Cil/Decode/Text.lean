import Cil.Decode.Error
import Cil.Json.Document

/-!
# Decoding texts

A text decodes when it is well formed and its value decodes. Arrays and objects nested too deeply
are not read. The error of a decoder is that of the text, whatever stands behind the place where the
decoder stopped, and what a decoder did on its way to an error stays done.
-/

namespace Cil.Decode

/-- The depth of nesting up to which arrays and objects are read. -/
def depthLimit : Nat := 127

variable {m : Type → Type} [Monad m] {α : Type}

/-- Decodes the value of a document. -/
def document [MonadExceptOf DecodeError m] (decode : Json → m α) (d : Json.Document) : m α := do
  let a ← decode d.root
  if d.isWellFormed then return a else throw .malformed

/-- A document whose root decodes must still be well formed. -/
theorem document_of_ok {decode : Json → Except DecodeError α} {d : Json.Document} {a : α}
    (h : decode d.root = .ok a) :
    document decode d = if d.isWellFormed then .ok a else .error .malformed := by
  rw [document, h]
  rfl

/-- A document whose root does not decode has the error of its root. -/
theorem document_of_error {decode : Json → Except DecodeError α} {d : Json.Document}
    {e : DecodeError} (h : decode d.root = .error e) : document decode d = .error e := by
  rw [document, h]
  rfl

/-- Decodes the value that a text holds. -/
def text [MonadExceptOf DecodeError m] (decode : Json → m α) (s : String) : m α :=
  document decode ((Json.Document.ofText s).clip depthLimit)

/-- Decodes a part of a document as the text of that part would be decoded. -/
def part [MonadExceptOf DecodeError m] (decode : Json → m α) (v : Json) : m α :=
  document decode { root := v.clip depthLimit, isWhole := true }

end Cil.Decode
