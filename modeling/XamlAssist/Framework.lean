import XamlAssist.Files.Path
import XamlAssist.Text.Blank

/-!
# Target frameworks

A component may be built for several frameworks, each in a folder of its own. The outputs are
ranked by their frameworks, the best first.
-/

namespace XamlAssist

open Text

/-- The kinds of frameworks, the best first. -/
inductive Framework
  /-- The full framework, such as `net48`. -/
  | legacy
  /-- The present framework, such as `net8.0` or `netcoreapp3.1`. -/
  | current
  /-- The common standard, such as `netstandard2.0`. -/
  | standard
  | other
  deriving DecidableEq, Repr

namespace Framework

/-- The place of a kind in the ranking. -/
def rank : Framework → Nat
  | legacy => 0
  | current => 1
  | standard => 2
  | other => 3

/-- The kind of a framework whose short name has this text behind `net`. A version with a point is
a present one, one of two or more digits an old one. -/
def ofVersion (version : List Char) : Framework :=
  let version := before '-' version
  if version.contains '.' && version.all fun c => c.isDigit || c = '.' then current
  else if 2 ≤ version.length && version.all Char.isDigit then legacy
  else other

/-- The kind of a framework with the given name. -/
def ofName (name : String) : Framework :=
  let name := lowerAscii (trim name.toList)
  let starts (text : String) : Bool := text.toList.isPrefixOf name
  if starts ".netframework" then legacy
  else if starts "netcoreapp" || starts ".netcoreapp" then current
  else if starts "netstandard" || starts ".netstandard" then standard
  else if starts "net" then ofVersion (name.drop 3)
  else other

end Framework

/-- The name of the folder that an output is in. -/
def frameworkOfPath? (path : Files.Path) : Option String := do (← path.parent?).fileName?

/-- The outputs by the rank of their frameworks; those of one rank keep their order. -/
def rankOutputs {α : Type} (framework : α → String) (outputs : List α) : List α :=
  outputs.mergeSort fun a b =>
    (Framework.ofName (framework a)).rank ≤ (Framework.ofName (framework b)).rank

end XamlAssist
