import XamlAssist.Extension.Cursor
import XamlAssist.Text.Reader

/-!
# Reading a markup extension up to a caret

An attribute value is read one character after the other. For the end of an unquoted value the
number of blanks that the text ends with is kept.
-/

namespace XamlAssist.Extension

open Text

/-- What is known after reading the start of an attribute value. -/
structure Reading extends Cursor where
  /-- The number of blanks that the text ends with. -/
  blanks : Nat := 0
  deriving DecidableEq, Repr

namespace Reading

/-- The current place moved back over the blanks before it, but not beyond the start of the
value. -/
def trimmedPos (r : Reading) : Nat :=
  max (r.level.argument.valueStart.getD r.pos) (r.pos - r.blanks)

/-- What a character changes besides the number of bytes and of blanks. -/
def react (r : Reading) (c : Char) : Cursor := r.toCursor.accept r.trimmedPos c

/-- Reads one character. -/
def step (r : Reading) (c : Char) : Reading where
  toCursor := { (if r.literal then r.toCursor else r.react c) with pos := r.pos + c.utf8Size }
  blanks := if isAsciiBlank c then r.blanks + 1 else 0

def reader : Reader Reading where
  pos r := r.pos
  step := step
  pos_step _ _ := rfl

/-- Reads a whole text. -/
def readAll (r : Reading) (text : List Char) : Reading := reader.readAll r text

/-- Reads on in `rest`, the text behind the reading, as long as whole characters end at or before
`offset`. -/
def readUpTo (r : Reading) (offset : Nat) (rest : List Char) : Reading :=
  reader.readUpTo r offset rest

/-- Continues a reading of `text` up to `offset`; it never goes back. -/
def advance (r : Reading) (text : List Char) (offset : Nat) : Reading :=
  reader.advance r text offset

/-- The reading of `text` up to `offset`. -/
def upTo (text : List Char) (offset : Nat) : Reading := ({} : Reading).advance text offset

end Reading

end XamlAssist.Extension
