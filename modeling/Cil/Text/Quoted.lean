import Cil.Text.Unprintable

/-!
# Quoted text

A text between double quotes on one line: quotes, backslashes and unprintable characters are
escaped, and every other character stands for itself.
-/

namespace Cil.Text

/-- The characters that stand for one character between quotes. -/
def escapeChar (c : Char) : List Char :=
  match c with
  | '\t' => ['\\', 't']
  | '\r' => ['\\', 'r']
  | '\n' => ['\\', 'n']
  | '\x00' => ['\\', '0']
  | '"' => ['\\', '"']
  | '\\' => ['\\', '\\']
  | c =>
    if isUnprintable c then ['\\', 'u', '\x7b'] ++ Nat.toDigits 16 c.toNat ++ ['\x7d'] else [c]

/-- The characters that stand for a text between quotes. -/
def escape (cs : List Char) : List Char := cs.flatMap escapeChar

/-- The quoted form of a text. -/
def quote (s : String) : String := String.ofList ('"' :: escape s.toList ++ ['"'])

end Cil.Text
