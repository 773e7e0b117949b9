import XamlAssist.Text.Blank
import XamlAssist.Text.Offset

/-!
# The place reached in a markup extension

An attribute value such as `{Binding Path, Converter={StaticResource X}}` is gone through character
by character. Every `{` that opens a nested extension sets the extension around it aside, and its
`}` brings that one back. This never fails: a comma always ends an argument.
-/

namespace XamlAssist.Extension

open Text

/-- The place inside an extension. -/
inductive Phase
  /-- Outside any extension: plain text, or behind the outermost `}`. -/
  | outside
  /-- In the name, right behind the `{` at first. -/
  | name
  /-- Behind a nested extension or a quoted value. -/
  | afterValue
  /-- In or before the name of an argument, behind a comma. -/
  | argumentName
  /-- Behind the name of an argument that a blank has ended. -/
  | afterName
  /-- Behind the `=` of an argument. -/
  | beforeValue
  /-- In or before the value of an argument, named or not. -/
  | value
  deriving DecidableEq, Repr

/-- What is known of the current argument, as byte offsets. -/
structure Argument where
  nameStart : Option Nat := none
  nameStop : Option Nat := none
  valueStart : Option Nat := none
  valueStop : Option Nat := none
  /-- Whether the text ends inside the quotes of the value. -/
  inQuotes : Bool := false
  deriving DecidableEq, Repr

/-- What is known of an extension at one level of nesting. -/
structure Level where
  phase : Phase := .outside
  nameStart : Nat := 0
  nameStop : Option Nat := none
  argument : Argument := {}
  /-- The number of commas that ended an argument. -/
  commas : Nat := 0
  deriving DecidableEq, Repr

/-- What is known at a place of an attribute value. -/
structure Cursor where
  /-- The number of bytes before the place. -/
  pos : Nat := 0
  /-- The extension that the place is inside of. -/
  level : Level := {}
  /-- The extensions around it, the innermost first. -/
  outer : List Level := []
  /-- Whether the value began with `{}`, which makes the rest of it plain text. -/
  literal : Bool := false
  deriving DecidableEq, Repr

namespace Cursor

/-- Goes on to another place of the extension. -/
def moveTo (r : Cursor) (phase : Phase) : Cursor := { r with level.phase := phase }

/-- Sets the end of the extension's name, here. -/
def endName (r : Cursor) : Cursor := { r with level.nameStop := some r.pos }

/-- Sets where the value starts, unless that is known. -/
def startValue (r : Cursor) : Cursor :=
  { r with level.argument.valueStart := some (r.level.argument.valueStart.getD r.pos) }

/-- An opening quote at the current place starts a quoted value. -/
def openQuote (r : Cursor) : Cursor :=
  { r with
    level.argument.valueStart := some (r.pos + 1)
    level.argument.inQuotes := true
    level.phase := .value }

/-- A `{` in the place of a value opens a nested extension. -/
def openNested (r : Cursor) : Cursor :=
  let outer := (r.moveTo .value).startValue.level
  { r with level := { phase := .name, nameStart := r.pos + 1 }, outer := outer :: r.outer }

/-- A `}` ends the extension; the one around it goes on behind its nested value. -/
def close (r : Cursor) : Cursor :=
  match r.outer with
  | level :: outer =>
      { r with
        level := { level with phase := .afterValue, argument.valueStop := some (r.pos + 1) }
        outer }
  | [] => r.moveTo .outside

/-- A comma ends the argument. -/
def nextArgument (r : Cursor) : Cursor :=
  { r with level.commas := r.level.commas + 1, level.argument := {}, level.phase := .argumentName }

/-- Sets the end of an unquoted value. -/
def endValue (r : Cursor) (stop : Nat) : Cursor := { r with level.argument.valueStop := some stop }

/-- The text of a value without a name turns out to be the name of an argument. -/
def nameFromValue (r : Cursor) (stop : Nat) : Cursor :=
  let start := r.level.argument.valueStart.getD r.pos
  { r with
    level.argument := { nameStart := some start, nameStop := some (max stop start) }
    level.phase := .beforeValue }

/-- Reads a character of the extension's name. -/
def readName (r : Cursor) (c : Char) : Cursor :=
  let atStart := r.pos == r.level.nameStart
  if c = '}' && atStart && r.outer.isEmpty then { r.moveTo .outside with literal := true }
  else if isAsciiBlank c then
    if atStart then { r with level.nameStart := r.pos + 1 }
    else { r.endName.moveTo .value with level.argument := {} }
  else if c = '}' then r.endName.close
  else if c = ',' then r.endName.nextArgument
  else r

/-- Reads a character in or before a value. If the value ends here, it ends at `stop`, before the
blanks behind it. -/
def readValue (r : Cursor) (stop : Nat) (c : Char) : Cursor :=
  let argument := r.level.argument
  if argument.inQuotes then
    if c = '\x27' then
      { r with
        level.argument.valueStop := some r.pos
        level.argument.inQuotes := false
        level.phase := .afterValue }
    else r
  else if c = ',' then (r.endValue stop).nextArgument
  else if c = '}' then (r.endValue stop).close
  else if c = '{' then r.openNested
  else if c = '=' && argument.nameStart.isNone then r.nameFromValue stop
  else if c = '\x27' && argument.valueStart.isNone then r.openQuote
  else if isAsciiBlank c then r
  else r.startValue

/-- Reads a character in or before the name of an argument. -/
def readArgumentName (r : Cursor) (c : Char) : Cursor :=
  let nameStart := r.level.argument.nameStart
  if isAsciiBlank c then
    if nameStart.isSome then
      { r with level.argument.nameStop := some r.pos, level.phase := .afterName }
    else r
  else if c = '=' then
    let start := nameStart.getD r.pos
    { r with
      level.argument.nameStart := some start
      level.argument.nameStop := some (max r.pos start)
      level.phase := .beforeValue }
  else if c = ',' then r.nextArgument
  else if c = '}' then r.close
  else if c = '{' then r.openNested
  else if c = '\x27' then r.openQuote
  else { r with level.argument.nameStart := some (nameStart.getD r.pos) }

/-- Reads a character behind the name of an argument. -/
def readAfterName (r : Cursor) (c : Char) : Cursor :=
  if isAsciiBlank c then r
  else if c = '=' then r.moveTo .beforeValue
  else if c = ',' then r.nextArgument
  else if c = '}' then r.close
  else { r with level.argument := { nameStart := some r.pos }, level.phase := .argumentName }

/-- Reads a character behind the `=` of an argument. -/
def readBeforeValue (r : Cursor) (c : Char) : Cursor :=
  if isAsciiBlank c then r
  else if c = '\x27' then r.openQuote
  else if c = '{' then r.openNested
  else if c = ',' then r.nextArgument
  else if c = '}' then r.close
  else { r with level.argument.valueStart := some r.pos, level.phase := .value }

/-- What a character changes besides the place. An unquoted value that it ends would end at
`stop`. -/
def accept (r : Cursor) (stop : Nat) (c : Char) : Cursor :=
  match r.level.phase with
  | .outside =>
      if c = '{' && r.outer.isEmpty then
        { r with level := { phase := .name, nameStart := r.pos + 1 } }
      else r
  | .name => r.readName c
  | .value => r.readValue stop c
  | .argumentName => r.readArgumentName c
  | .afterName => r.readAfterName c
  | .beforeValue => r.readBeforeValue c
  | .afterValue =>
      if c = ',' then r.nextArgument else if c = '}' then r.close else r

/-- The number of extensions around the current one. -/
def nestingLevel (r : Cursor) : Nat := r.outer.length

/-- The name of the current extension, or of the last one behind its `}`. An unfinished name ends
at the caret. -/
def extensionNameSpan (r : Cursor) : Option Span :=
  if r.literal || (r.level.phase == .outside && r.level.nameStart == 0) then none
  else some (.ofOffsets r.level.nameStart (r.level.nameStop.getD r.pos))

/-- The name of the current argument, if it has one. An unfinished name ends at the caret. -/
def argumentNameSpan (r : Cursor) : Option Span :=
  r.level.argument.nameStart.map fun start =>
    .ofOffsets start
      (if r.level.phase = .argumentName then r.pos else r.level.argument.nameStop.getD r.pos)

/-- The value of the current argument. An unfinished value ends at the caret. -/
def argumentValueSpan (r : Cursor) : Option Span :=
  let argument := r.level.argument
  match r.level.phase with
  | .value => some (.ofOffsets (argument.valueStart.getD r.pos) r.pos)
  | .afterValue =>
      argument.valueStart.map fun start => .ofOffsets start (argument.valueStop.getD r.pos)
  | _ => none

end Cursor

end XamlAssist.Extension
