import Cil.Json.Numeral

/-!
# Tokens

The marks, strings and bare words of a JSON text in order. Scanning never fails: a place that no
JSON text can hold becomes the token `bad`, and the token before it is still delivered. Strings
are assembled from characters and the UTF-16 units of their escapes.
-/

namespace Cil.Json

/-- A part of a string as written: a character, or the UTF-16 unit of an escape. -/
inductive Piece
  | char (c : Char)
  | unit (n : Nat)
  deriving DecidableEq, Repr

namespace Piece

/-- The unit opens a surrogate pair. -/
def isHigh (n : Nat) : Bool := 0xd800 ≤ n ∧ n < 0xdc00

/-- The unit closes a surrogate pair. -/
def isLow (n : Nat) : Bool := 0xdc00 ≤ n ∧ n < 0xe000

/-- The code point of a surrogate pair. -/
def pair (high low : Nat) : Nat := 0x10000 + (high - 0xd800) * 0x400 + (low - 0xdc00)

/-- The characters the pieces denote, unless a surrogate stands alone. -/
def chars? : List Piece → Option (List Char)
  | [] => some []
  | .char c :: rest => (chars? rest).map (c :: ·)
  | .unit high :: .unit low :: rest =>
    if isHigh high then
      if isLow low then (chars? rest).map (Char.ofNat (pair high low) :: ·) else none
    else if isLow high then none
    else (chars? (.unit low :: rest)).map (Char.ofNat high :: ·)
  | .unit n :: rest =>
    if isHigh n || isLow n then none else (chars? rest).map (Char.ofNat n :: ·)

end Piece

/-- A lexical element of a JSON text. -/
inductive Token
  | beginArray
  | endArray
  | beginObject
  | endObject
  | colon
  | comma
  /-- A string, or `none` when a surrogate stands alone in it. -/
  | text (value : Option String)
  /-- Null, a boolean, a number, or the flaw of a number that overflows. -/
  | atom (value : Json)
  | bad

namespace Token

/-- The value of a hexadecimal digit. -/
def hexDigit? (c : Char) : Option Nat :=
  if c.isDigit then some (c.toNat - '0'.toNat)
  else if 'a' ≤ c ∧ c ≤ 'f' then some (10 + (c.toNat - 'a'.toNat))
  else if 'A' ≤ c ∧ c ≤ 'F' then some (10 + (c.toNat - 'A'.toNat))
  else none

/-- The character of a two-character escape. -/
def escape? : Char → Option Char
  | '"' => some '"'
  | '\\' => some '\\'
  | '/' => some '/'
  | 'b' => some '\x08'
  | 'f' => some '\x0c'
  | 'n' => some '\n'
  | 'r' => some '\r'
  | 't' => some '\t'
  | _ => none

/-- The token of a mark. -/
def mark? : Char → Option Token
  | '[' => some .beginArray
  | ']' => some .endArray
  | '\x7b' => some .beginObject
  | '\x7d' => some .endObject
  | ':' => some .colon
  | ',' => some .comma
  | _ => none

/-- The characters that may stand between tokens. -/
def isBlank (c : Char) : Bool := c = ' ' || c = '\t' || c = '\n' || c = '\r'

/-- The token of a word without quotes. -/
def ofWord (cs : List Char) : Token :=
  if cs = "null".toList then .atom .null
  else if cs = "true".toList then .atom (.bool true)
  else if cs = "false".toList then .atom (.bool false)
  else match Numeral.ofChars? cs with
    | none => .bad
    | some n => .atom (match n.number? with
      | none => .flaw .unreadable
      | some value => .number value)

/-- The token of a string with these pieces. -/
def ofPieces (ps : List Piece) : Token := .text ((Piece.chars? ps).map String.ofList)

/-- What the scanner is in the middle of, with the parts read so far in reverse. -/
inductive Mode
  | between
  | word (read : List Char)
  | quoted (read : List Piece)
  | escape (read : List Piece)
  | unit (read : List Piece) (digits : Nat) (value : Nat)

/-- The tokens of the rest of a text. -/
def scan : Mode → List Char → List Token
  | .between, [] => []
  | .word read, [] => [ofWord read.reverse]
  | .quoted _, [] => [.bad]
  | .escape _, [] => [.bad]
  | .unit _ _ _, [] => [.bad]
  | .between, c :: rest =>
    if isBlank c then scan .between rest
    else if c = '"' then scan (.quoted []) rest
    else match mark? c with
      | some t => t :: scan .between rest
      | none => scan (.word [c]) rest
  | .word read, c :: rest =>
    if isBlank c then ofWord read.reverse :: scan .between rest
    else if c = '"' then ofWord read.reverse :: scan (.quoted []) rest
    else match mark? c with
      | some t => ofWord read.reverse :: t :: scan .between rest
      | none => scan (.word (c :: read)) rest
  | .quoted read, c :: rest =>
    if c = '"' then ofPieces read.reverse :: scan .between rest
    else if c = '\\' then scan (.escape read) rest
    else if c.toNat < 0x20 then [.bad]
    else scan (.quoted (.char c :: read)) rest
  | .escape read, c :: rest =>
    if c = 'u' then scan (.unit read 0 0) rest
    else match escape? c with
      | some e => scan (.quoted (.char e :: read)) rest
      | none => [.bad]
  | .unit read digits value, c :: rest =>
    match hexDigit? c with
    | none => [.bad]
    | some d =>
      if digits = 3 then scan (.quoted (.unit (16 * value + d) :: read)) rest
      else scan (.unit read (digits + 1) (16 * value + d)) rest

/-- The tokens of a text. -/
def ofText (s : String) : List Token := scan .between s.toList

end Token

end Cil.Json
