import XamlAssist.Text.Parts

/-!
# File paths

A path is a text with slashes between its parts. Two paths are the same if they have the same
components: repeated slashes, a slash at the end and a dot that is not the first part do not count,
while a dot at the start does, and two dots are never resolved.
-/

namespace XamlAssist.Files

open Text

/-- A path as it is spelled. -/
structure Path where
  text : String
  deriving DecidableEq, Repr, Inhabited

inductive Component
  /-- The slash that a path starts with. -/
  | root
  /-- A dot at the start. -/
  | here
  /-- Two dots. -/
  | up
  | name (text : String)
  deriving DecidableEq, Repr

namespace Path

/-- Whether the path starts with a slash. -/
def isAbsolute (path : Path) : Bool := path.text.toList.head? = some '/'

/-- The texts between the slashes, without the one before a slash at the start. -/
def parts (path : Path) : List (List Char) :=
  let parts := splitAtChar '/' path.text.toList
  if path.isAbsolute then parts.drop 1 else parts

/-- The component that a part stands for, if any; a dot counts if it is `first`. -/
def componentOf? (first : Bool) (part : List Char) : Option Component :=
  if part = [] then none
  else if part = ['.'] then if first then some .here else none
  else if part = ['.', '.'] then some .up
  else some (.name (String.ofList part))

/-- The components of a list of parts, the first of which may be a dot if `first` holds. -/
def componentsOf (first : Bool) : List (List Char) → List Component
  | [] => []
  | part :: parts => (componentOf? first part).toList ++ componentsOf false parts

/-- The components of a path. -/
def components (path : Path) : List Component :=
  if path.isAbsolute then .root :: componentsOf false path.parts
  else componentsOf true path.parts

/-- Whether two paths have the same components. -/
def sameAs (a b : Path) : Bool := a.components = b.components

/-- The parts, in reverse, from the last one that is a component on. -/
def dropIdle (absolute : Bool) : List (List Char) → List (List Char)
  | [] => []
  | part :: before =>
      if (componentOf? (!absolute && before.isEmpty) part).isSome then part :: before
      else dropIdle absolute before

/-- The path without its last component, as the start of its text; there is none for the empty
path and for a slash. -/
def parent? (path : Path) : Option Path :=
  let absolute := path.isAbsolute
  match dropIdle absolute path.parts.reverse with
  | [] => none
  | _ :: before =>
      let kept := joinWith ['/'] (dropIdle absolute before).reverse
      some ⟨String.ofList (if absolute then '/' :: kept else kept)⟩

/-- The last component, if it is a name. -/
def fileName? (path : Path) : Option String :=
  match path.components.getLast? with
  | some (.name text) => some text
  | _ => none

/-- The file name before its last dot; a dot at its start does not count. -/
def fileStem? (path : Path) : Option String :=
  path.fileName?.map fun name =>
    match name.toList.reverse.dropWhile (· ≠ '.') with
    | [] | [_] => name
    | _ :: stem => String.ofList stem.reverse

/-- The path `file` as seen from `folder`. -/
def join (folder file : Path) : Path :=
  if file.isAbsolute then file
  else if folder.text.isEmpty || folder.text.toList.getLast? = some '/' then
    ⟨folder.text ++ file.text⟩
  else ⟨folder.text ++ "/" ++ file.text⟩

end Path

end XamlAssist.Files
