import XamlAssist.Session
import XamlAssist.Text.Blank

/-!
# Reference lists

The libraries that a library refers to are listed in a text file, one path on a line.
-/

namespace XamlAssist

open Files Text

/-- The paths in a reference list. Blanks around a path and blank lines do not count. -/
def parseReferences (text : String) : List Path :=
  (((splitAtChar '\n' text.toList).map trim).filter (!·.isEmpty)).map fun line =>
    ⟨String.ofList line⟩

/-- Reads a reference list from a file. -/
def readReferences (files : Tree) (path : Path) : Except OpenError (List Path) :=
  match files.readText path with
  | .error failure => .error (.file path failure)
  | .ok text => .ok (parseReferences text)

/-- Adds a path at the end unless the list has the same path. -/
def addPath (paths : List Path) (path : Path) : List Path :=
  if paths.any (·.sameAs path) then paths else paths ++ [path]

/-- The primary library, then its references, each path once and in its first spelling. -/
def libraryPaths (primary : Path) (references : List Path) : List Path :=
  references.foldl addPath [primary]

end XamlAssist
