import XamlAssist.Selector.Reading

/-!
# The statements of a selector

Reading a selector goes from statement to statement. Each statement takes what belongs to it and
names the one that follows, or finds that the text is no selector. The spans found before a fault
are kept.
-/

namespace XamlAssist.Selector

open Text

/-- The places of the selector grammar. -/
inductive Statement
  /-- The start of a selector or of a segment. -/
  | start
  /-- Behind a component, where more may follow. -/
  | middle
  /-- Behind a `:`. -/
  | pseudo
  /-- Behind a `.`. -/
  | styleClass
  /-- Behind a `#`. -/
  | elementName
  /-- Behind a type or an element name. -/
  | afterName
  /-- Before a blank or a `>` between two segments. -/
  | combinator
  /-- At a type name. -/
  | typeName
  /-- Behind a `[`. -/
  | predicate
  /-- At the property of an attached-property predicate, or at its type behind a `(`. -/
  | attachedProperty (inParentheses : Bool)
  /-- At a `/`. -/
  | template
  /-- Behind the `=` of a predicate. -/
  | value
  /-- Behind the `(` of a function. -/
  | function (function : Function)
  /-- At the arguments of a counting function. -/
  | arguments
  /-- The end. -/
  | done
  deriving DecidableEq, Repr

/-- What a statement comes to: the reading behind it and the next statement, or none if the text
is no selector. -/
abbrev Step := Reading × Option Statement

/-- The text of the combinator that leads into a control's template. -/
def templateText : List Char := ['/', 't', 'e', 'm', 'p', 'l', 'a', 't', 'e', '/']

/-- Whether a text, without the blanks around it, may be the argument of a counting function:
`odd`, `even`, or some digits, `n`, signs and blanks. -/
def isCount (text : List Char) : Bool :=
  let inner := trim text
  inner = ['o', 'd', 'd'] || inner = ['e', 'v', 'e', 'n'] ||
    (!inner.isEmpty &&
      inner.all fun c => c.isDigit || c = 'n' || c = '+' || c = '-' || isBlank c)

namespace Reading

variable [IdentifierTables]

/-- The statement is at fault; what was noted before stays. -/
def fault (r : Reading) : Step := (r, none)

/-- Goes on with another statement. -/
def goOn (r : Reading) (next : Statement) : Step := (r, some next)

/-- Changes the components. -/
def note (r : Reading) (change : Components → Components) : Reading :=
  { r with components := change r.components }

/-- Notes that a segment has to follow. -/
def expectSegment (r : Reading) : Reading := { r with expectsSegment := true }

/-- Notes that the parenthesis of a function is open. -/
def openFunction (r : Reading) (function : Function) : Reading :=
  { r with openFunctions := function :: r.openFunctions }

/-- Notes that the innermost open parenthesis is closed. -/
def closeFunction (r : Reading) : Reading := { r with openFunctions := r.openFunctions.drop 1 }

/-- The start of a selector or segment. Blanks alone are a selector, but no segment. -/
def readStart (r : Reading) : Step :=
  let r := r.skipBlanks
  match r.peek with
  | none => if r.expectsSegment then r.fault else r.goOn .done
  | some c =>
      let r := r.startSegment
      if c = ':' then r.bump.goOn .pseudo
      else if c = '.' then r.bump.goOn .styleClass
      else if c = '#' then r.bump.goOn .elementName
      else if c = '^' then r.bump.goOn .middle
      else if isIdentifierStart c then r.goOn .typeName
      else r.fault

/-- Behind a component. -/
def readMiddle (r : Reading) : Step :=
  match r.peek with
  | none => if r.openFunctions.isEmpty then r.goOn .done else r.fault
  | some c =>
      if c = ':' then r.startSegment.bump.goOn .pseudo
      else if c = '.' then r.startSegment.bump.goOn .styleClass
      else if c = '#' then r.startSegment.bump.goOn .elementName
      else if c = '[' then r.startSegment.bump.goOn .predicate
      else if c = '/' then r.goOn .template
      else if c = '>' || isBlank c then r.goOn .combinator
      else if c = ',' then r.bump.expectSegment.goOn .start
      else if c = ')' && !r.openFunctions.isEmpty then r.bump.closeFunction.goOn .middle
      else r.fault

/-- Behind a type or an element name. -/
def readAfterName (r : Reading) : Step :=
  if r.peek = some '[' then r.startSegment.bump.goOn .predicate else r.goOn .middle

/-- A pseudo-class, or the name of a function with its parenthesis. -/
def readPseudo (r : Reading) : Step :=
  match r.takeRun isStyleClassChar with
  | none => r.fault
  | some (span, next) =>
      if next.peek = some '(' then
        match Function.ofName? (r.rest.takeWhile isStyleClassChar) with
        | none => next.fault
        | some function =>
            (next.note ({ · with function := some span, arguments := none })).bump.goOn
              (.function function)
      else (next.note ({ · with pseudoClass := some span })).goOn .middle

/-- The start of a function's arguments. -/
def readFunction (r : Reading) (function : Function) : Step :=
  match function with
  | .is => (r.openFunction .is).goOn .typeName
  | .not => (r.openFunction .not).expectSegment.goOn .start
  | .nthChild | .nthLastChild => r.goOn .arguments

/-- The argument of a counting function with its parenthesis. -/
def readArguments (r : Reading) : Step :=
  match r.takeThrough ')' with
  | none => r.fault
  | some (span, inner, next) =>
      if isCount inner then (next.note ({ · with arguments := some span })).goOn .middle
      else r.fault

/-- A style class. -/
def readStyleClass (r : Reading) : Step :=
  match r.takeRun isStyleClassChar with
  | none => r.fault
  | some (span, next) => (next.note ({ · with styleClass := some span })).goOn .middle

/-- An element name. -/
def readElementName (r : Reading) : Step :=
  match r.takeIdentifier with
  | none => r.fault
  | some (span, next) => (next.note ({ · with elementName := some span })).goOn .afterName

/-- The blanks or the `>` between two segments. Blanks at the end of the text, of a segment list
or of a function stand for nothing. -/
def readCombinator (r : Reading) : Step :=
  let r := r.skipBlanks
  match r.peek with
  | some '>' => r.bump.skipBlanks.expectSegment.goOn .start
  | some '/' => r.goOn .template
  | none | some ',' | some ')' => r.goOn .middle
  | some _ => r.expectSegment.goOn .start

/-- A type name, with the name of a namespace and a bar before it if it has one. -/
def readTypeName (r : Reading) : Step :=
  let r := r.startSegment
  match r.takeIdentifier with
  | none => r.fault
  | some (first, next) =>
      if next.peek = some '|' then
        match next.bump.takeIdentifier with
        | none => next.fault
        | some (second, last) =>
            (last.note ({ · with namespaceName := some first, typeName := some second })).goOn
              .afterName
      else
        (next.note ({ · with namespaceName := none, typeName := some first })).goOn .afterName

/-- The combinator that leads into a template. -/
def readTemplate (r : Reading) : Step :=
  let r := r.startSegment
  match r.takeText templateText with
  | none => r.fault
  | some next => next.expectSegment.goOn .start

/-- The `=` of a predicate. -/
def readEquals (r : Reading) : Step :=
  let r := r.skipBlanks
  if r.peek = some '=' then r.bump.goOn .value else r.fault

/-- The start of a predicate: a property, or the type of an attached property. -/
def readPredicate (r : Reading) : Step :=
  let cleared := r.note
    ({ · with attachedNamespace := none, attachedType := none, value := none })
  let r := cleared.skipBlanks
  if r.peek = some '(' then r.bump.goOn (.attachedProperty true)
  else
    match r.takeIdentifier with
    | none => r.fault
    | some (first, next) =>
        if next.peek = some '|' then
          match next.bump.takeIdentifier with
          | none => next.fault
          | some (second, last) =>
              if last.peek = some '.' then
                (last.bump.note
                  ({ · with attachedNamespace := some first, attachedType := some second })).goOn
                  (.attachedProperty false)
              else last.fault
        else if next.peek = some '.' then
          (next.bump.note ({ · with attachedType := some first })).goOn (.attachedProperty false)
        else (next.note ({ · with property := some first })).readEquals

/-- The type of an attached property inside parentheses, with the dot behind it. Gives the reading
behind it and whether it was there. -/
def readAttachedType (r : Reading) : Reading × Bool :=
  match r.takeIdentifier with
  | none => (r, false)
  | some (first, next) =>
      let (typed, found) :=
        if next.peek = some '|' then
          let qualified := next.bump.note ({ · with attachedNamespace := some first })
          match qualified.takeIdentifier with
          | none => (qualified, false)
          | some (second, last) => (last.note ({ · with attachedType := some second }), true)
        else (next.note ({ · with attachedType := some first }), true)
      if found && typed.peek = some '.' then (typed.bump, true) else (typed, false)

/-- The property of an attached-property predicate. -/
def readAttachedProperty (r : Reading) (inParentheses : Bool) : Step :=
  let (r, typed) := if inParentheses then r.readAttachedType else (r, true)
  if !typed then r.fault
  else
    match r.takeIdentifier with
    | none => r.fault
    | some (span, next) =>
        let next := next.note ({ · with property := some span })
        if !inParentheses then next.readEquals
        else if next.peek = some ')' then next.bump.readEquals
        else next.fault

/-- The value of a predicate. An unfinished value is noted too. -/
def readValue (r : Reading) : Step :=
  match r.takeThrough ']' with
  | none =>
      (r.note ({ · with value := some (.ofOffsets r.pos (r.pos + byteLength r.rest)) })).fault
  | some (span, _, next) => (next.note ({ · with value := some span })).goOn .middle

/-- Reads one statement. -/
def step (r : Reading) : Statement → Step
  | .start => r.readStart
  | .middle => r.readMiddle
  | .pseudo => r.readPseudo
  | .styleClass => r.readStyleClass
  | .elementName => r.readElementName
  | .afterName => r.readAfterName
  | .combinator => r.readCombinator
  | .typeName => r.readTypeName
  | .predicate => r.readPredicate
  | .attachedProperty inParentheses => r.readAttachedProperty inParentheses
  | .template => r.readTemplate
  | .value => r.readValue
  | .function function => r.readFunction function
  | .arguments => r.readArguments
  | .done => r.fault

end Reading

end XamlAssist.Selector
