import XamlAssist.Text.Blank
import XamlAssist.Text.Decimal
import XamlAssist.Text.Parts

/-!
# Names of generic types

A reference to a type names it in full, such as `System.Collections.Generic.IList<App.Item>`. A
generic type is declared under a name that ends with a backquote and the number of its parameters.
-/

namespace XamlAssist

open Text

/-- An instance of a generic type: the name it is declared under and its arguments. -/
structure GenericName where
  definition : String
  arguments : List String
  deriving DecidableEq, Repr

namespace GenericName

/-- The character between a declared name and the number of its parameters. -/
def arityMark : Char := '\x60'

/-- Splits a text at the commas outside its angle brackets, `depth` of which are open. There is no
result if the brackets do not match. -/
def splitArguments (depth : Nat) : List Char → Option (List (List Char))
  | [] => if depth = 0 then some [[]] else none
  | c :: rest =>
      if c = '<' then (splitArguments (depth + 1) rest).map (consPart c)
      else if c = '>' then
        match depth with
        | 0 => none
        | outer + 1 => (splitArguments outer rest).map (consPart c)
      else if c = ',' && depth = 0 then (splitArguments 0 rest).map ([] :: ·)
      else (splitArguments depth rest).map (consPart c)

/-- The text between the first `<` and a `>` at the end. -/
def bracketed? (name : List Char) : Option (List Char) :=
  match name.dropWhile (· ≠ '<') with
  | [] => none
  | _ :: inner => if inner.getLast? = some '>' then some inner.dropLast else none

/-- The name under which the type `head` with `count` arguments is declared. -/
def declaredName (head : List Char) (count : Nat) : List Char :=
  if head.contains arityMark then head else head ++ arityMark :: decimal count

/-- Takes a name apart. A name is no instance if its brackets do not match or if an argument is
blank. -/
def parse? (name : List Char) : Option GenericName := do
  let inner ← bracketed? name
  let arguments := (← splitArguments 0 inner).map trim
  if arguments.any List.isEmpty then none
  else
    some
      { definition := String.ofList (declaredName (before '<' name) arguments.length)
        arguments := arguments.map String.ofList }

/-- Takes a name apart. -/
def ofString? (name : String) : Option GenericName := parse? name.toList

/-- How deep the brackets of a text nest when `depth` of them are open; a bracket that closes
nothing does not count. -/
def nestingFrom (depth : Nat) : List Char → Nat
  | [] => 0
  | c :: rest =>
      if c = '<' then max (depth + 1) (nestingFrom (depth + 1) rest)
      else if c = '>' then nestingFrom (depth - 1) rest
      else nestingFrom depth rest

/-- How deep the brackets of a name nest. -/
def nesting (name : String) : Nat := nestingFrom 0 name.toList

/-- The name that a type is declared under: that of the generic type for an instance, and
otherwise the name itself. -/
def definitionName (name : String) : String :=
  match ofString? name with
  | some generic => generic.definition
  | none => name

/-- The name of an instance for display, from the simple name of its declaration. -/
def displayName (simpleName : String) (arguments : List String) : String :=
  String.ofList (before arityMark simpleName.toList) ++ "<" ++
    String.intercalate ", " arguments ++ ">"

/-- The generic types that hold a sequence of items. -/
def collectionDefinitions : List String :=
  ["System.Collections.Generic.IList`1",
   "System.Collections.Generic.ICollection`1",
   "System.Collections.Generic.IEnumerable`1",
   "System.Collections.Generic.IReadOnlyList`1",
   "System.Collections.Generic.List`1",
   "System.Collections.ObjectModel.ObservableCollection`1",
   "Avalonia.Collections.AvaloniaList`1",
   "Avalonia.Collections.IAvaloniaList`1"]

/-- Whether a generic type holds a sequence of items. -/
def isCollection (definition : String) : Bool := collectionDefinitions.contains definition

/-- The generic type that wraps a value that may be missing. -/
def nullableDefinition : String := "System.Nullable`1"

end GenericName

end XamlAssist
