/-!
# Contents of files

What came of reading a file, and the text in it. The text is there only when the bytes are UTF-8.
-/

namespace Cil

/-- What came of reading a file. -/
inductive FileContents
  | missing
  | directory
  | bytes (data : ByteArray)

namespace FileContents

/-- The text of a file, or the reason why there is none. -/
def text : FileContents → Except String String
  | .missing => .error "No such file or directory (os error 2)"
  | .directory => .error "Is a directory (os error 21)"
  | .bytes data => match String.fromUTF8? data with
    | some s => .ok s
    | none => .error "stream did not contain valid UTF-8"

end FileContents

end Cil
