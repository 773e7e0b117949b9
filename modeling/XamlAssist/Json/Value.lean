import XamlAssist.Json.Token

/-!
# JSON values

A value is built from the tokens of a text by a machine that takes one token after the other. The
containers that are not finished wait on a stack, so that values may nest to any depth.
-/

namespace XamlAssist.Json

open Text

/-- A JSON value. The fields of an object keep their order, and a name may occur twice. -/
inductive Value
  | null
  | bool (value : Bool)
  | number (value : Number)
  | string (value : List Written)
  | array (items : List Value)
  | object (fields : List (List Written × Value))

/-- A container that waits for a value. What it holds so far has the latest first. -/
inductive Frame
  | array (items : List Value)
  | member (fields : List (List Written × Value)) (name : List Written)

/-- What may come next. -/
inductive State
  /-- A value. -/
  | needsValue (outer : List Frame)
  /-- A value or the end of an array that is still empty. -/
  | firstItem (outer : List Frame)
  /-- A comma or the end of an array. -/
  | afterItem (items : List Value) (outer : List Frame)
  /-- A name or the end of an object that is still empty. -/
  | firstName (outer : List Frame)
  /-- A name. -/
  | needsName (fields : List (List Written × Value)) (outer : List Frame)
  /-- The colon behind a name. -/
  | needsColon (fields : List (List Written × Value)) (name : List Written) (outer : List Frame)
  /-- A comma or the end of an object. -/
  | afterMember (fields : List (List Written × Value)) (outer : List Frame)
  /-- Nothing: the value is complete. -/
  | done (value : Value)

namespace State

/-- Hands a finished value to the container that waits for it. -/
def deliver (value : Value) : List Frame → State
  | [] => .done value
  | .array items :: outer => .afterItem (value :: items) outer
  | .member fields name :: outer => .afterMember ((name, value) :: fields) outer

/-- Starts a value with its first token. -/
def begin (token : Token) (outer : List Frame) : Option State :=
  match token with
  | .openBrace => some (.firstName outer)
  | .openBracket => some (.firstItem outer)
  | .null => some (deliver .null outer)
  | .bool value => some (deliver (.bool value) outer)
  | .number value => some (deliver (.number value) outer)
  | .string value => some (deliver (.string value) outer)
  | _ => none

/-- Takes one token. -/
def step : State → Token → Option State
  | .needsValue outer, token => begin token outer
  | .firstItem outer, .closeBracket => some (deliver (.array []) outer)
  | .firstItem outer, token => begin token (.array [] :: outer)
  | .afterItem items outer, .comma => some (.needsValue (.array items :: outer))
  | .afterItem items outer, .closeBracket => some (deliver (.array items.reverse) outer)
  | .firstName outer, .closeBrace => some (deliver (.object []) outer)
  | .firstName outer, .string name => some (.needsColon [] name outer)
  | .needsName fields outer, .string name => some (.needsColon fields name outer)
  | .needsColon fields name outer, .colon => some (.needsValue (.member fields name :: outer))
  | .afterMember fields outer, .comma => some (.needsName fields outer)
  | .afterMember fields outer, .closeBrace => some (deliver (.object fields.reverse) outer)
  | _, _ => none

end State

/-- The value that tokens stand for. -/
def Value.ofTokens? (tokens : List Token) : Option Value := do
  match ← tokens.foldlM State.step (.needsValue []) with
  | .done value => some value
  | _ => none

/-- The value that a text stands for. -/
def Value.ofText? (text : List Char) : Option Value := tokens text >>= Value.ofTokens?

/-- The character of a UTF-16 surrogate pair. -/
def pairedChar (high low : Nat) : Char :=
  Char.ofNat (0x10000 + (high - 0xD800) * 0x400 + (low - 0xDC00))

/-- The text that a string stands for. There is none if a surrogate stands alone. -/
def textOf? : List Written → Option (List Char)
  | [] => some []
  | .plain c :: rest => (textOf? rest).map (c :: ·)
  | .escaped c :: rest => (textOf? rest).map (c :: ·)
  | .unit high :: .unit low :: rest =>
      if 0xD800 ≤ high && high < 0xDC00 then
        if 0xDC00 ≤ low && low < 0xE000 then (textOf? rest).map (pairedChar high low :: ·)
        else none
      else if 0xDC00 ≤ high && high < 0xE000 then none
      else (textOf? (.unit low :: rest)).map (Char.ofNat high :: ·)
  | .unit n :: rest =>
      if 0xD800 ≤ n && n < 0xE000 then none else (textOf? rest).map (Char.ofNat n :: ·)

end XamlAssist.Json
