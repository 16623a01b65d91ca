import Cil.Json.Token

/-!
# Documents

The value of a whole text. Reading never fails: where the text stops being JSON, the value holds
the flaw `broken` and ends, so that whoever takes the value in from left to right meets every part
before that place first. In the same way the members of an object end at a name that denotes no
string.
-/

namespace Cil.Json

/-- An array or object of which a first part has been read, the latest part in front. -/
inductive Frame
  | array (items : List Json)
  /-- The key is that of the member whose value is awaited. The object is torn behind a key that
  denotes no string, and takes in no more members. -/
  | object (members : List (String × Json)) (key : String) (isTorn : Bool)

namespace Frame

/-- Adds the awaited value. -/
def push (v : Json) : Frame → Frame
  | .array items => .array (v :: items)
  | .object members key isTorn =>
    .object (if isTorn then members else (key, v) :: members) "" isTorn

/-- The value of the frame; the flaw stands for the members that a torn object does not take in. -/
def close (flaw : Flaw) : Frame → Json
  | .array items => .array items.reverse
  | .object members _ isTorn =>
    if isTorn then .torn members.reverse flaw else .object members.reverse

end Frame

/-- What may come next. -/
inductive Expectation
  | value
  | itemOrEnd
  | key
  | keyOrEnd
  | colon
  | commaOrEnd
  /-- Nothing: the root is complete. -/
  | nothing (root : Json)

/-- The value of a text, and whether the text ends with it. -/
structure Document where
  root : Json
  isWhole : Bool

namespace Document

/-- The text is JSON. -/
def isWellFormed (d : Document) : Bool := d.isWhole && d.root.isWellFormed

/-- Ends all open frames behind a value that ends the text. -/
def abandon : List Frame → Json → Json
  | [], v => v
  | f :: outer, v => abandon outer ((f.push v).close .broken)

/-- Puts a complete value into the innermost frame. -/
def settle (v : Json) : List Frame → List Frame × Expectation
  | [] => ([], .nothing v)
  | f :: outer => (f.push v :: outer, .commaOrEnd)

/-- The next state after a token, if the token may come next. -/
def step : List Frame → Expectation → Token → Option (List Frame × Expectation)
  | stack, .value, t => begins stack t
  | stack, .itemOrEnd, t =>
    match t, stack with
    | .endArray, f :: outer => some (settle (f.close .unreadable) outer)
    | t, stack => begins stack t
  | stack, .keyOrEnd, t =>
    match t, stack with
    | .endObject, f :: outer => some (settle (f.close .unreadable) outer)
    | t, stack => names stack t
  | stack, .key, t => names stack t
  | stack, .colon, t =>
    match t with
    | .colon => some (stack, .value)
    | _ => none
  | stack, .commaOrEnd, t =>
    match t, stack with
    | .comma, .array _ :: _ => some (stack, .value)
    | .comma, .object _ _ _ :: _ => some (stack, .key)
    | .endArray, .array items :: outer =>
      some (settle ((Frame.array items).close .unreadable) outer)
    | .endObject, .object members key isTorn :: outer =>
      some (settle ((Frame.object members key isTorn).close .unreadable) outer)
    | _, _ => none
  | _, .nothing _, _ => none
where
  /-- A token that begins a value. -/
  begins (stack : List Frame) : Token → Option (List Frame × Expectation)
    | .beginArray => some (.array [] :: stack, .itemOrEnd)
    | .beginObject => some (.object [] "" false :: stack, .keyOrEnd)
    | .text (some s) => some (settle (.string s) stack)
    | .text none => some (settle (.flaw .unreadable) stack)
    | .atom v => some (settle v stack)
    | _ => none
  /-- A token that names a member. -/
  names (stack : List Frame) : Token → Option (List Frame × Expectation)
    | .text s => match stack with
      | .object members _ isTorn :: outer =>
        some (.object members (s.getD "") (isTorn || s.isNone) :: outer, .colon)
      | _ => none
    | _ => none

/-- Reads the rest of the tokens. -/
def resume (stack : List Frame) (expected : Expectation) : List Token → Document
  | [] => match expected with
    | .nothing root => { root, isWhole := true }
    | _ => { root := abandon stack (.flaw .broken), isWhole := true }
  | t :: rest => match step stack expected t with
    | some (stack, expected) => resume stack expected rest
    | none => match expected with
      | .nothing root => { root, isWhole := false }
      | _ => { root := abandon stack (.flaw .broken), isWhole := true }

/-- The document of a text. -/
def ofText (s : String) : Document := resume [] .value (Token.ofText s)

/-- The document in which values can be read up to a depth of nesting. -/
def clip (depth : Nat) (d : Document) : Document := { d with root := d.root.clip depth }

end Document

end Cil.Json
