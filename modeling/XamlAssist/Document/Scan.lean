import XamlAssist.Document.Context

/-!
# Scanning a document

A scan has the text of the document at hand and looks at its bytes at absolute places: at the byte
that it passes, at those before it to see whether an opener or a terminator ends there, at the byte
before a `>`, and at the byte behind the `<` of the current construct. It keeps offsets alone.
-/

namespace XamlAssist.Document

open Text

/-- The kind of place that a text ends at. -/
inductive Region
  | content
  | comment
  | cdata
  | tagName
  | gap
  | attributeName
  | beforeValue
  | value
  | afterValue
  deriving DecidableEq, Repr

def Region.isInsideTag : Region → Bool
  | .content | .comment | .cdata => false
  | _ => true

/-- The state of a scan. -/
structure Scan where
  /-- The number of bytes passed. -/
  pos : Nat := 0
  region : Region := .content
  /-- The offset of the `<` of the current or the last construct. -/
  tagOpen : Nat := 0
  nameStart : Option Nat := none
  nameStop : Option Nat := none
  closing : Bool := false
  attributeStart : Option Nat := none
  attributeStop : Option Nat := none
  valueStart : Option Nat := none
  valueStop : Option Nat := none
  /-- The quote around the current value, if it has quotes. -/
  quote : Option Char := none
  /-- The offsets of the `<` of the open tags, the innermost first. -/
  openTags : List Nat := []
  deriving DecidableEq, Repr

namespace Scan

def commentStart : List Char := ['<', '!', '-', '-']
def commentEnd : List Char := ['-', '-', '>']
def cdataStart : List Char := ['<', '!', '[', 'C', 'D', 'A', 'T', 'A', '[']
def cdataEnd : List Char := [']', ']', '>']

/-- Whether the text up to the byte at `i`, with this byte, ends with `mark`. -/
def endsWithAt (bytes : List UInt8) (i : Nat) (mark : List Char) : Bool :=
  (utf8 mark).isSuffixOf (bytes.take (i + 1))

def resetAttribute (s : Scan) : Scan :=
  { s with
    attributeStart := none
    attributeStop := none
    valueStart := none
    valueStop := none
    quote := none }

/-- A `<` at `i` opens a tag. -/
def openTag (s : Scan) (i : Nat) : Scan :=
  { s.resetAttribute with
    region := .tagName
    tagOpen := i
    nameStart := some (i + 1)
    nameStop := none
    closing := false
    openTags := i :: s.openTags }

/-- A `<` at `i` inside an unfinished tag drops that tag and opens another. -/
def abandonTag (s : Scan) (i : Nat) : Scan := { s with openTags := s.openTags.drop 1 }.openTag i

/-- An attribute name starts at `i`. -/
def startAttribute (s : Scan) (i : Nat) : Scan :=
  { s.resetAttribute with attributeStart := some i, region := .attributeName }

/-- Goes on between attributes. -/
def leaveAttribute (s : Scan) : Scan := { s.resetAttribute with region := .gap }

/-- Sets the end of the attribute name, unless that is known. -/
def endAttribute (s : Scan) (i : Nat) : Scan :=
  { s with attributeStop := some (s.attributeStop.getD i) }

/-- The `>` at `i` ends the tag. -/
def closeTag (s : Scan) (bytes : List UInt8) (i : Nat) : Scan :=
  let selfClosing := 0 < i && charAt? bytes (i - 1) == some '/'
  let behind := charAt? bytes (s.tagOpen + 1)
  let declaration := behind == some '?' || behind == some '!'
  let left := if s.closing then 2 else if selfClosing || declaration then 1 else 0
  { s with region := .content, openTags := s.openTags.drop left }

/-- Whether the construct from its `<` up to the byte at `i` is `mark`. -/
def isOpenedBy (s : Scan) (bytes : List UInt8) (i : Nat) (mark : List Char) : Bool :=
  endsWithAt bytes i mark && i + 1 - s.tagOpen == byteLength mark

/-- Whether the byte at `i` completes the terminator `mark` behind the opener `start`. -/
def isEndedBy (s : Scan) (bytes : List UInt8) (i : Nat) (start mark : List Char) : Bool :=
  endsWithAt bytes i mark && s.tagOpen + byteLength start + 2 ≤ i

/-- Passes the byte `c` at `i` in a tag name. -/
def passName (s : Scan) (bytes : List UInt8) (i : Nat) (c : Char) : Scan :=
  if s.isOpenedBy bytes i commentStart then
    { s with region := .comment, openTags := s.openTags.drop 1 }
  else if s.isOpenedBy bytes i cdataStart then
    { s with region := .cdata, openTags := s.openTags.drop 1 }
  else if c = '/' then
    if s.nameStart = some i ∧ !s.closing then
      { s with closing := true, nameStart := some (i + 1) }
    else { s with nameStop := some i, region := .gap }
  else if c = '>' then { s with nameStop := some i }.closeTag bytes i
  else if c = '<' then s.abandonTag i
  else if isMarkupBlank c then { s with nameStop := some i, region := .gap }
  else s

/-- Passes the byte `c` at `i` in a value. -/
def passValue (s : Scan) (bytes : List UInt8) (i : Nat) (c : Char) : Scan :=
  match s.quote with
  | some quote =>
      if c = quote then { s with valueStop := some i, region := .afterValue } else s
  | none =>
      if isMarkupBlank c then s.leaveAttribute
      else if c = '>' then { s with valueStop := some i }.closeTag bytes i
      else s

/-- Passes the byte `c` at `i`, apart from counting it. -/
def pass (s : Scan) (bytes : List UInt8) (i : Nat) (c : Char) : Scan :=
  match s.region with
  | .content => if c = '<' then s.openTag i else s
  | .comment =>
      if s.isEndedBy bytes i commentStart commentEnd then { s with region := .content } else s
  | .cdata =>
      if s.isEndedBy bytes i cdataStart cdataEnd then { s with region := .content } else s
  | .tagName => s.passName bytes i c
  | .gap =>
      if c = '>' then s.closeTag bytes i
      else if c = '<' then s.abandonTag i
      else if c = '/' || isMarkupBlank c then s
      else s.startAttribute i
  | .attributeName =>
      if c = '=' then { s.endAttribute i with region := .beforeValue }
      else if c = '>' then (s.endAttribute i).closeTag bytes i
      else if c = '<' then s.abandonTag i
      else if c = '/' then s.leaveAttribute
      else if isMarkupBlank c then s.endAttribute i
      else if s.attributeStop.isSome then s.startAttribute i
      else s
  | .beforeValue =>
      if c = '"' || c = '\x27' then
        { s with quote := some c, valueStart := some (i + 1), region := .value }
      else if c = '>' then s.closeTag bytes i
      else if c = '<' then s.abandonTag i
      else if isMarkupBlank c then s
      else { s with quote := none, valueStart := some i, region := .value }
  | .value => s.passValue bytes i c
  | .afterValue =>
      if c = '>' then s.closeTag bytes i
      else if c = '/' || isMarkupBlank c then s.leaveAttribute
      else if c = '<' then s.abandonTag i
      else s.startAttribute i

/-- Passes the byte at the current place. At the end of the text nothing happens. -/
def step (bytes : List UInt8) (s : Scan) : Scan :=
  match charAt? bytes s.pos with
  | none => s
  | some c => { s.pass bytes s.pos c with pos := s.pos + 1 }

theorem pos_step (bytes : List UInt8) (s : Scan) (h : s.pos < bytes.length) :
    (step bytes s).pos = s.pos + 1 := by
  rw [step, charAt?, List.getElem?_eq_getElem h]
  rfl

def scanner : Scanner Scan where
  pos := pos
  step := step
  pos_step := pos_step

/-- Continues a scan of `text` up to `offset`; it never goes back. -/
def advance (s : Scan) (text : List Char) (offset : Nat) : Scan := scanner.advance s text offset

/-- The scan of `text` up to `offset`. -/
def upTo (text : List Char) (offset : Nat) : Scan := ({} : Scan).advance text offset

/-- The name of the current tag, or of the last one between tags. -/
def tagNameSpan (s : Scan) : Option Span :=
  match s.region with
  | .comment | .cdata => none
  | _ => s.nameStart.map fun start => .ofOffsets start (s.nameStop.getD s.pos)

/-- The name of the current attribute. -/
def attributeNameSpan (s : Scan) : Option Span :=
  if s.region.isInsideTag then
    s.attributeStart.map fun start => .ofOffsets start (s.attributeStop.getD s.pos)
  else none

/-- The value of the current attribute, without its quotes. -/
def attributeValueSpan (s : Scan) : Option Span :=
  match s.region with
  | .value => s.valueStart.map fun start => .ofOffsets start s.pos
  | .afterValue => do return .ofOffsets (← s.valueStart) (← s.valueStop)
  | _ => none

end Scan

/-! ### What a caret is told -/

/-- What is told about the place that a text ends at. -/
structure Snapshot where
  pos : Nat
  region : Region
  isClosing : Bool
  tagName : Option Span
  attributeName : Option Span
  attributeValue : Option Span
  openTags : List Nat
  deriving DecidableEq, Repr

def Scan.snapshot (s : Scan) : Snapshot :=
  ⟨s.pos, s.region, s.closing, s.tagNameSpan, s.attributeNameSpan, s.attributeValueSpan,
    s.openTags⟩

def Spot.region : Spot → Region
  | .name => .tagName
  | .gap => .gap
  | .attributeName .. => .attributeName
  | .beforeValue _ => .beforeValue
  | .value .. => .value
  | .afterValue .. => .afterValue

def Phase.region : Phase → Region
  | .content _ => .content
  | .comment .. => .comment
  | .cdata .. => .cdata
  | .inTag _ spot => spot.region

def Reading.snapshot (r : Reading) : Snapshot :=
  ⟨r.pos, r.phase.region, r.isClosingTag, r.tagNameSpan, r.attributeNameSpan,
    r.attributeValueSpan, r.openTags⟩

end XamlAssist.Document
