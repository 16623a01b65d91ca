import Cil.Decode.Text
import Cil.Error
import Cil.File
import Cil.Options.Basic

/-!
# Reading options

Options from a text and from a file. Every failure is an options error. The place is the one at
which the reader of the text stops if the text does not decode.
-/

namespace Cil.Options

/-- The options a text states; `WeaveOptions.parse`. -/
def parse (s : String) (place : Position) : Except Error Options :=
  (Decode.text decode s).mapError fun e ↦
    .options ("Failed to parse options JSON: " ++ e.messageAt place)

/-- The options stated in the file at a path, given what reading it yields; `WeaveOptions.load`. -/
def load (path : String) (contents : FileContents) (place : Position) : Except Error Options :=
  match contents.text with
  | .ok s => parse s place
  | .error reason => .error (.options ("Failed to read options file " ++ path ++ ": " ++ reason))

end Cil.Options
