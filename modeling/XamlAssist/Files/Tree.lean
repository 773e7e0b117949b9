import XamlAssist.Files.Path

/-!
# A tree of files

The files that a program sees under its working folder, and the ways in which reading one fails.
-/

namespace XamlAssist.Files

open Text

/-- The content of a file. -/
abbrev Bytes := List UInt8

/-- Why a file cannot be read. -/
inductive Failure
  | notFound
  | isFolder
  | notFolder
  /-- The content is no UTF-8 text. -/
  | notText
  /-- The reader was refused. -/
  | denied
  deriving DecidableEq, Repr

def Failure.message : Failure → String
  | .notFound => "No such file or directory (os error 2)"
  | .isFolder => "Is a directory (os error 21)"
  | .notFolder => "Not a directory (os error 20)"
  | .notText => "stream did not contain valid UTF-8"
  | .denied => "denied"

/-- Where a path starts from. -/
inductive Origin
  /-- The folder so many steps above the working folder. -/
  | above (steps : Nat)
  /-- The folder above all others. -/
  | root
  deriving DecidableEq, Repr

/-- A place, by the names that lead to it, the last first. Of the folders outside the working folder
nothing is known but what was written there. -/
structure Place where
  origin : Origin := .above 0
  names : List String := []
  deriving DecidableEq, Repr

/-- What stands at a place. -/
inductive Entry
  | file (content : Bytes)
  | folder
  | nothing

/-- The files with their contents, and the folders. -/
structure Tree where
  files : List (Place × Bytes) := []
  folders : List Place := []

namespace Place

/-- Goes from a folder to a part of a path. Nothing is above the folder above all others. -/
def go (place : Place) (part : List Char) : Place :=
  if part = [] || part = ['.'] then place
  else if part = ['.', '.'] then
    match place.names, place.origin with
    | _ :: names, _ => { place with names }
    | [], .above steps => { origin := .above (steps + 1) }
    | [], .root => place
  else { place with names := String.ofList part :: place.names }

/-- The place that a path starts from. -/
def startOf (path : Path) : Place := if path.isAbsolute then { origin := .root } else {}

end Place

namespace Tree

/-- What stands at a place. -/
def entryAt (tree : Tree) (place : Place) : Entry :=
  match tree.files.lookup place with
  | some content => .file content
  | none => if place.names.isEmpty || tree.folders.contains place then .folder else .nothing

/-- Follows the parts of a path; every part leads on from a folder. -/
def follow (tree : Tree) (place : Place) : List (List Char) → Except Failure Place
  | [] => .ok place
  | part :: parts =>
      match tree.entryAt place with
      | .file _ => .error .notFolder
      | .nothing => .error .notFound
      | .folder => tree.follow (place.go part) parts

/-- The place that a path leads to. -/
def locate (tree : Tree) (path : Path) : Except Failure Place :=
  if path.text.isEmpty then .error .notFound
  else tree.follow (.startOf path) path.parts

/-- What a path leads to. -/
def find (tree : Tree) (path : Path) : Except Failure Entry :=
  match tree.locate path with
  | .error failure => .error failure
  | .ok place =>
      match tree.entryAt place with
      | .nothing => .error .notFound
      | entry => .ok entry

/-- The content of a file. -/
def read (tree : Tree) (path : Path) : Except Failure Bytes :=
  match tree.find path with
  | .error failure => .error failure
  | .ok (.file content) => .ok content
  | .ok _ => .error .isFolder

/-- The content of a text file. -/
def readText (tree : Tree) (path : Path) : Except Failure String :=
  match tree.read path with
  | .error failure => .error failure
  | .ok content =>
      match String.fromUTF8? ⟨content.toArray⟩ with
      | none => .error .notText
      | some text => .ok text

/-- The tree with a folder at a place. -/
def makeFolder (tree : Tree) (place : Place) : Tree :=
  if tree.folders.contains place then tree else { tree with folders := place :: tree.folders }

/-- The places that a path passes through when every folder on the way is there, the last of which
is the place that it leads to. -/
def passed (path : Path) : List Place := path.parts.scanl Place.go (.startOf path)

/-- The tree with a file written. Every folder that the path to it passes through is made, also one
that the path leaves again. -/
def write (tree : Tree) (path : Path) (content : Bytes) : Tree :=
  let folders := (path.parent?.map passed).getD []
  let place := path.parts.foldl Place.go (.startOf path)
  let tree := folders.foldl makeFolder tree
  { tree with files := (place, content) :: tree.files.filter (·.1 ≠ place) }

/-- The tree without a file, and whether it was there. -/
def remove (tree : Tree) (path : Path) : Tree × Bool :=
  match tree.locate path with
  | .error _ => (tree, false)
  | .ok place =>
      match tree.entryAt place with
      | .file _ => ({ tree with files := tree.files.filter (·.1 ≠ place) }, true)
      | _ => (tree, false)

end Tree

end XamlAssist.Files
