import XamlAssist.Document.Reading

/-!
# Context of the caret in a document

What a reading tells about the caret: the tag, attribute and value that it stands in, the names and
attributes of the tags around it, and the next sibling of the element it stands in.
-/

namespace XamlAssist.Document

open Text

namespace Reading

/-- Whether the current tag, or the last one, is a closing tag. -/
def isClosingTag (r : Reading) : Bool := r.phase.tag?.any Tag.closing

/-- The name of the current tag, or of the last one between tags. An unfinished name ends at the
caret. -/
def tagNameSpan (r : Reading) : Option Span :=
  match r.phase with
  | .comment .. | .cdata .. => none
  | phase => phase.tag?.map fun tag => .ofOffsets tag.nameStart (tag.nameStop.getD r.pos)

/-- The name of the current attribute. An unfinished name ends at the caret. -/
def attributeNameSpan (r : Reading) : Option Span :=
  match r.phase with
  | .inTag _ (.attributeName start stop) => some (.ofOffsets start (stop.getD r.pos))
  | .inTag _ (.beforeValue name) => some (.ofOffsets name.start name.stop)
  | .inTag _ (.value name _ _) => some (.ofOffsets name.start name.stop)
  | .inTag _ (.afterValue name _) => some (.ofOffsets name.start name.stop)
  | _ => none

/-- The value of the current attribute, without its quotes. An unfinished value ends at the
caret. -/
def attributeValueSpan (r : Reading) : Option Span :=
  match r.phase with
  | .inTag _ (.value _ _ start) => some (.ofOffsets start r.pos)
  | .inTag _ (.afterValue _ value) => some (.ofOffsets value.start value.stop)
  | _ => none

/-- The number of open tags, the one under the caret included. -/
def nestingLevel (r : Reading) : Nat := r.openTags.length

/-- A character that ends a tag name. -/
def endsTagName (c : Char) : Bool := isMarkupBlank c || c == '>' || c == '/' || c == '<'

/-- The name of the open tag `level` steps out from the innermost one. -/
def enclosingTagName (r : Reading) (text : List Char) (level : Nat) : Option String := do
  let start ← r.openTags[level]?
  let (_, rest) ← splitAt? text (start + 1)
  some (String.ofList (rest.takeWhile fun c => !endsTagName c))

/-- Whether the last character read closed a quoted value of the attribute `name`. -/
def closesValueOf (before after : Reading) (text : List Char) (name : String) : Bool :=
  match before.phase, after.phase with
  | .inTag _ (.value ..), .inTag _ (.afterValue ..) =>
      (after.attributeNameSpan.map (·.text text)) == some name
  | _, _ => false

/-- Reads on in `rest` to the value of the attribute `name` of the tag that starts at `start`. -/
def seekAttribute (text : List Char) (start : Nat) (name : String) (r : Reading) :
    List Char → Option String
  | [] => none
  | c :: rest =>
      let next := r.step c
      if closesValueOf r next text name then next.attributeValueSpan.map (·.text text)
      else if next.phase.isContent && start + 1 < next.pos then none
      else seekAttribute text start name next rest

/-- The value of the attribute `name` in the tag that starts at `start`. -/
def attributeOfTag (text : List Char) (start : Nat) (name : String) : Option String :=
  seekAttribute text start name { pos := start } (dropBytes text start)

/-- The value of the attribute `name` on the nearest of the `levels` innermost open tags that
has it. -/
def ancestorAttribute (r : Reading) (text : List Char) (name : String) (levels : Nat) :
    Option String :=
  (r.openTags.take levels).findSome? fun start => attributeOfTag text start name

/-- Whether the reading stands right behind a `<` that opens neither a comment, nor character
data, a declaration or a processing instruction, given the text behind it. -/
def isAtTagStart (r : Reading) (rest : List Char) : Bool :=
  match r.phase with
  | .inTag tag .name =>
      r.pos == tag.start + 1 && !(rest.head? == some '!' || rest.head? == some '?')
  | _ => false

/-- Goes to the start tag of the next sibling of the current element: to the end of the current
tag, past the content of its element, then to the next tag. Gives the offset of its `<`, or none
if the text ends first or if that tag closes the parent, along with the reading reached. -/
def seekSibling (r : Reading) (text : List Char) : Option Nat × Reading :=
  let parentLevel := if r.phase.isInsideTag then r.nestingLevel - 1 else r.nestingLevel
  match r.readUntil (fun r _ => !r.phase.isInsideTag) (dropBytes text r.pos) with
  | (r, none) => (none, r)
  | (r, some rest) =>
    match r.readUntil (fun r _ => r.nestingLevel ≤ parentLevel) rest with
    | (r, none) => (none, r)
    | (r, some rest) =>
      match r.readUntil isAtTagStart rest with
      | (r, none) => (none, r)
      | (r, some rest) =>
          (if rest.head? == some '/' then none else r.phase.tag?.map Tag.start, r)

end Reading

end XamlAssist.Document
