import XamlAssist.Conversion.Convert

/-!
# Loading graphs and keeping them

A graph is loaded from the files of its libraries and kept under the list of their paths until one
of them changes. Lists of paths are compared path by path by their components.
-/

namespace XamlAssist

open Files Conversion

/-- A way to open the libraries at some paths, with effects in `m`. -/
abbrev Provider (m : Type → Type) := List Path → m (Except OpenError Session)

section Loading

variable {m : Type → Type} [Monad m]

/-- Opens libraries from a tree of files. -/
def Provider.ofFiles (files : Tree) : Provider m := fun paths =>
  return .ok (Session.ofPaths files paths)

/-- Refuses to open any library. -/
def Provider.refusing : Provider m := fun paths =>
  return .error (.file (paths.head?.getD ⟨""⟩) .denied)

/-- Opens libraries and converts them. The graph does not depend on the session any more. There is
none if the conversion is cancelled. -/
def loadGraph (provider : Provider m) (settings : Settings) (isCancelled : Bool)
    (paths : List Path) : m (Except OpenError (Option TypeGraph)) := do
  let session ← provider paths
  return session.map fun session =>
    (convertUnless isCancelled settings session).map TypeGraph.releaseHandles

end Loading

/-- Whether two lists have the same paths in the same order. -/
def samePaths (a b : List Path) : Bool := a.map Path.components = b.map Path.components

/-- Loaded graphs by the paths of their libraries. -/
structure GraphCache where
  entries : List (List Path × TypeGraph) := []

namespace GraphCache

def size (cache : GraphCache) : Nat := cache.entries.length

def isEmpty (cache : GraphCache) : Bool := cache.entries.isEmpty

/-- The graph that is kept for some paths. -/
def get? (cache : GraphCache) (paths : List Path) : Option TypeGraph :=
  (cache.entries.find? (samePaths paths ·.1)).map Prod.snd

/-- Keeps what was loaded for some paths. Nothing is kept if the loading failed or was cancelled. -/
def keep (cache : GraphCache) (paths : List Path) :
    Except OpenError (Option TypeGraph) → GraphCache
  | .ok (some graph) => { entries := cache.entries ++ [(paths, graph)] }
  | _ => cache

/-- The graph that is kept for some paths or else is loaded and then kept. -/
def getOrLoad {m : Type → Type} [Monad m] (cache : GraphCache) (provider : Provider m)
    (settings : Settings) (isCancelled : Bool) (paths : List Path) :
    m (Except OpenError (Option TypeGraph) × GraphCache) :=
  match cache.get? paths with
  | some graph => return (.ok (some graph), cache)
  | none => do
      let result ← loadGraph provider settings isCancelled paths
      return (result, cache.keep paths result)

/-- Drops the graph for some paths, and tells whether there was one. -/
def invalidate (cache : GraphCache) (paths : List Path) : Bool × GraphCache :=
  ((cache.get? paths).isSome, { entries := cache.entries.filter (!samePaths paths ·.1) })

/-- Drops every graph whose libraries include the one at the given path, and tells how many there
were. -/
def invalidateContaining (cache : GraphCache) (path : Path) : Nat × GraphCache :=
  let contains (entry : List Path × TypeGraph) : Bool := entry.1.any (·.sameAs path)
  (cache.entries.countP contains, { entries := cache.entries.filter (!contains ·) })

/-- The cache without any graph. -/
def clear (_ : GraphCache) : GraphCache := {}

end GraphCache

end XamlAssist
