/-!
# Byte offsets in a text

A text is a list of characters; a place in it is named by the number of bytes of its UTF-8 form
that precede the place. A number of bytes that ends inside a character names no place.
-/

namespace XamlAssist.Text

/-- The number of bytes of the UTF-8 form of a text. -/
def byteLength : List Char → Nat
  | [] => 0
  | c :: cs => c.utf8Size + byteLength cs

/-- The last place of the text at or before `offset`: beyond the end this is the end, and inside a
character it is the start of that character. -/
def floorOffset : List Char → Nat → Nat
  | [], _ => 0
  | c :: cs, offset =>
      if c.utf8Size ≤ offset then c.utf8Size + floorOffset cs (offset - c.utf8Size) else 0

/-- The text before and after `offset`, if `offset` names a place. -/
def splitAt? : List Char → Nat → Option (List Char × List Char)
  | cs, 0 => some ([], cs)
  | [], _ + 1 => none
  | c :: cs, offset + 1 =>
      if c.utf8Size ≤ offset + 1 then
        (splitAt? cs (offset + 1 - c.utf8Size)).map fun (before, after) => (c :: before, after)
      else none

/-- Whether `offset` names a place of the text. -/
def isPlace (text : List Char) (offset : Nat) : Bool := (splitAt? text offset).isSome

/-- The text from `offset` on, empty if `offset` names no place. -/
def dropBytes (text : List Char) (offset : Nat) : List Char :=
  match splitAt? text offset with
  | some (_, after) => after
  | none => []

/-- The text up to the last place at or before `offset`. -/
def takeBytes : List Char → Nat → List Char
  | [], _ => []
  | c :: cs, offset =>
      if c.utf8Size ≤ offset then c :: takeBytes cs (offset - c.utf8Size) else []

/-- The text between two places, if both are places and in order. -/
def between? (text : List Char) (start stop : Nat) : Option (List Char) :=
  if start ≤ stop then do
    let (_, tail) ← splitAt? text start
    let (inner, _) ← splitAt? tail (stop - start)
    some inner
  else none

/-- A piece of a text, by the 32-bit byte offsets of its bounds. -/
structure Span where
  start : UInt32
  stop : UInt32
  deriving DecidableEq, Repr, Inhabited

namespace Span

/-- The span with the given bounds. An end before the start is raised to the start, then both
bounds keep their low 32 bits. -/
def ofOffsets (start stop : Nat) : Span :=
  ⟨start.toUInt32, (max start stop).toUInt32⟩

/-- The span with the given bounds, if these are still in order once cut to 32 bits. -/
def ofOffsets? (start stop : Nat) : Option Span :=
  let span := ofOffsets start stop
  if span.start ≤ span.stop then some span else none

/-- The piece of `text` that the span names, empty where its bounds are not places of the text. -/
def read (span : Span) (text : List Char) : List Char :=
  (between? text span.start.toNat span.stop.toNat).getD []

/-- The piece of `text` that the span names, as a string. -/
def text (span : Span) (source : List Char) : String := String.ofList (span.read source)

end Span

end XamlAssist.Text
