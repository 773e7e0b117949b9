import XamlAssist.Text.Blank
import XamlAssist.Text.Reader

/-!
# Reading a markup document up to a caret

A document is read one character after the other. What has been read is summed up in a `Reading`:
the construct that the text ends inside of and the tags that are still open. Reading never fails;
unfinished or malformed markup just leaves the reading where it got to.

Every delimiter is an ASCII character, so each offset that is kept is a place of the text.
-/

namespace XamlAssist.Document

open Text

/-- The bounds of a finished name or value, as byte offsets. -/
structure Bounds where
  start : Nat
  stop : Nat
  deriving DecidableEq, Repr

/-- A construct that began with `<`. -/
structure Tag where
  /-- The offset of the `<`. -/
  start : Nat
  /-- The offset of the name, behind the slash of a closing tag. -/
  nameStart : Nat
  /-- The end of the name, once it is finished. -/
  nameStop : Option Nat := none
  /-- Whether this is a closing tag. -/
  closing : Bool := false
  /-- The characters read since the `<`, the latest first. -/
  seen : List Char := []
  deriving DecidableEq, Repr

/-- The place inside a tag. -/
inductive Spot
  /-- In the name, right behind the `<` at first. -/
  | name
  /-- Between attributes. -/
  | gap
  /-- In or behind an attribute name, the end of which is known once a blank follows it. -/
  | attributeName (start : Nat) (stop : Option Nat)
  /-- Behind the `=` of an attribute. -/
  | beforeValue (name : Bounds)
  /-- In an attribute value, which may lack quotes. -/
  | value (name : Bounds) (quote : Option Char) (start : Nat)
  /-- Right behind the closing quote of an attribute value. -/
  | afterValue (name : Bounds) (value : Bounds)
  deriving DecidableEq, Repr

/-- The construct that the text read so far ends inside of. A body is kept with its latest
character first. -/
inductive Phase
  /-- Between tags, with the construct that ended last. -/
  | content (last : Option Tag)
  | comment (tag : Tag) (body : List Char)
  | cdata (tag : Tag) (body : List Char)
  | inTag (tag : Tag) (spot : Spot)
  deriving DecidableEq, Repr

/-- The construct that is read or was read last. -/
def Phase.tag? : Phase → Option Tag
  | .content last => last
  | .comment tag _ => some tag
  | .cdata tag _ => some tag
  | .inTag tag _ => some tag

/-- Whether the text ends inside a tag. -/
def Phase.isInsideTag : Phase → Bool
  | .inTag .. => true
  | _ => false

/-- Whether the text ends between tags. -/
def Phase.isContent : Phase → Bool
  | .content _ => true
  | _ => false

/-- What is known after reading the start of a document. -/
structure Reading where
  /-- The number of bytes read. -/
  pos : Nat := 0
  phase : Phase := .content none
  /-- The offsets of the `<` of the open tags, the innermost first. -/
  openTags : List Nat := []
  deriving DecidableEq, Repr

namespace Reading

/-- A `<` at the current place opens a tag. -/
def openTag (r : Reading) : Reading :=
  { r with
    phase := .inTag { start := r.pos, nameStart := r.pos + 1 } .name
    openTags := r.pos :: r.openTags }

/-- A `<` inside an unfinished tag drops that tag and opens another. -/
def abandonTag (r : Reading) : Reading :=
  { r with openTags := r.openTags.drop 1 }.openTag

/-- A `>` ends the tag. A closing tag leaves with the element that it closes; an empty element, a
declaration and a processing instruction leave alone. -/
def closeTag (r : Reading) (tag : Tag) : Reading :=
  let selfClosing := tag.seen.head? == some '/'
  let declaration := tag.seen.getLast? == some '?' || tag.seen.getLast? == some '!'
  let left := if tag.closing then 2 else if selfClosing || declaration then 1 else 0
  { r with phase := .content (some tag), openTags := r.openTags.drop left }

/-- Goes on to another place of the tag. -/
def moveTo (r : Reading) (tag : Tag) (spot : Spot) : Reading :=
  { r with phase := .inTag tag spot }

/-- The characters of `<!--` behind the `<`, the latest first. -/
def commentOpener : List Char := ['-', '-', '!']

/-- The characters of `<![CDATA[` behind the `<`, the latest first. -/
def cdataOpener : List Char := ['[', 'A', 'T', 'A', 'D', 'C', '[', '!']

/-- Whether a comment body, its latest character first, ends with `-->`. -/
def endsComment : List Char → Bool
  | '>' :: '-' :: '-' :: _ => true
  | _ => false

/-- Whether the body of a character data section, its latest character first, ends with `]]>`. -/
def endsCdata : List Char → Bool
  | '>' :: ']' :: ']' :: _ => true
  | _ => false

/-- Reads a character of a tag name. A tag that turns out to be a comment or a section of
character data is no longer an open tag. -/
def readName (r : Reading) (tag : Tag) (c : Char) : Reading :=
  let seen := c :: tag.seen
  let next := { tag with seen }
  if seen = commentOpener then
    { r with phase := .comment next [], openTags := r.openTags.drop 1 }
  else if seen = cdataOpener then
    { r with phase := .cdata next [], openTags := r.openTags.drop 1 }
  else if c = '/' then
    if r.pos = tag.nameStart ∧ !tag.closing then
      r.moveTo { next with closing := true, nameStart := r.pos + 1 } .name
    else r.moveTo { next with nameStop := some r.pos } .gap
  else if c = '>' then r.closeTag { tag with nameStop := some r.pos }
  else if c = '<' then r.abandonTag
  else if isMarkupBlank c then r.moveTo { next with nameStop := some r.pos } .gap
  else r.moveTo next .name

/-- Reads a character at a place of a tag behind its name. -/
def readSpot (r : Reading) (tag : Tag) (spot : Spot) (c : Char) : Reading :=
  let next := { tag with seen := c :: tag.seen }
  match spot with
  | .name => r.readName tag c
  | .gap =>
      if c = '>' then r.closeTag tag
      else if c = '<' then r.abandonTag
      else if c = '/' || isMarkupBlank c then r.moveTo next .gap
      else r.moveTo next (.attributeName r.pos none)
  | .attributeName start stop =>
      if c = '=' then r.moveTo next (.beforeValue ⟨start, stop.getD r.pos⟩)
      else if c = '>' then r.closeTag tag
      else if c = '<' then r.abandonTag
      else if c = '/' then r.moveTo next .gap
      else if isMarkupBlank c then r.moveTo next (.attributeName start (some (stop.getD r.pos)))
      else if stop.isSome then r.moveTo next (.attributeName r.pos none)
      else r.moveTo next spot
  | .beforeValue name =>
      if c = '"' || c = '\x27' then r.moveTo next (.value name (some c) (r.pos + 1))
      else if c = '>' then r.closeTag tag
      else if c = '<' then r.abandonTag
      else if isMarkupBlank c then r.moveTo next spot
      else r.moveTo next (.value name none r.pos)
  | .value name (some quote) start =>
      if c = quote then r.moveTo next (.afterValue name ⟨start, r.pos⟩)
      else r.moveTo next spot
  | .value _ none _ =>
      if isMarkupBlank c then r.moveTo next .gap
      else if c = '>' then r.closeTag tag
      else r.moveTo next spot
  | .afterValue .. =>
      if c = '>' then r.closeTag tag
      else if c = '/' || isMarkupBlank c then r.moveTo next .gap
      else if c = '<' then r.abandonTag
      else r.moveTo next (.attributeName r.pos none)

/-- What a character changes besides the number of bytes read. -/
def react (r : Reading) (c : Char) : Reading :=
  match r.phase with
  | .content _ => if c = '<' then r.openTag else r
  | .comment tag body =>
      let body := c :: body
      { r with phase := if endsComment body then .content (some tag) else .comment tag body }
  | .cdata tag body =>
      let body := c :: body
      { r with phase := if endsCdata body then .content (some tag) else .cdata tag body }
  | .inTag tag spot => r.readSpot tag spot c

/-- Reads one character. -/
def step (r : Reading) (c : Char) : Reading :=
  { r.react c with pos := r.pos + c.utf8Size }

def reader : Reader Reading where
  pos := pos
  step := step
  pos_step _ _ := rfl

/-- Reads a whole text. -/
def readAll (r : Reading) (text : List Char) : Reading := reader.readAll r text

/-- Reads on in `rest`, the text behind the reading, as long as whole characters end at or before
`offset`. -/
def readUpTo (r : Reading) (offset : Nat) (rest : List Char) : Reading :=
  reader.readUpTo r offset rest

/-- Reads on in `rest` until `stop` holds of the reading and the text behind it, and gives that
text; it gives none if the text ends first. -/
def readUntil (stop : Reading → List Char → Bool) (r : Reading) :
    List Char → Reading × Option (List Char)
  | [] => (r, if stop r [] then some [] else none)
  | c :: rest =>
      if stop r (c :: rest) then (r, some (c :: rest)) else (r.step c).readUntil stop rest

/-- Continues a reading of `text` up to `offset`; it never goes back. -/
def advance (r : Reading) (text : List Char) (offset : Nat) : Reading :=
  reader.advance r text offset

/-- The reading of `text` up to `offset`. -/
def upTo (text : List Char) (offset : Nat) : Reading := ({} : Reading).advance text offset

end Reading

end XamlAssist.Document
