import XamlAssist.Conversion.Hints

/-!
# From a session to its graph

A conversion starts with the seed. It first makes the offered types of every library reachable, then
gathers their members, and at last adds hints that need the whole graph.
-/

namespace XamlAssist.Conversion

open TypeGraph Library

/-- The namespace whose types are reachable through the default namespace even if no library says
so. -/
def layoutNamespace : String := "Avalonia.Layout"

/-- The aliases that a library declares for a namespace, each once. -/
def declaredAliases (library : Library) (space : String) : List String :=
  insertAllNew [] <| library.attributes.filterMap fun declared =>
    match declared.arguments[0]?, declared.arguments[1]? with
    | some uri, some name =>
        if declared.typeName = xmlnsDefinition && name = space then some uri else none
    | _, _ => none

/-- The aliases for a namespace in a library. -/
def aliases (library : Library) (space : String) : List String :=
  match declaredAliases library space with
  | [] => if space = layoutNamespace then [defaultNamespace] else []
  | declared => declared

/-- The namespaces that a type is made reachable through. -/
def spaces (library : Library) (type : SessionType) : List String :=
  let space := type.decl.namespaceName
  ("clr-namespace:" ++ space ++ ";assembly=" ++ type.library) :: ("using:" ++ space) ::
    aliases library space

variable {w : Type} [Checks w]

/-- Makes an offered type reachable and notes it. -/
def registerType (library : Library) (state : List (TypeId × SessionType) × Builder w)
    (type : SessionType) : List (TypeId × SessionType) × Builder w :=
  let (id, builder) := state.2.ensure type
  (state.1 ++ [(id, type)],
    (spaces library type).foldl (fun builder space => builder.register space type.decl.name id)
      builder)

/-- Makes the offered types of a library reachable. -/
def registerLibrary (scope : Scope) (state : List (TypeId × SessionType) × Builder w)
    (library : SessionLibrary) : List (TypeId × SessionType) × Builder w :=
  (scope.offered library).foldl (registerType library.library) state

/-- The offered types with their numbers, and the graph in which they are reachable. -/
def register (scope : Scope) : List (TypeId × SessionType) × Builder w :=
  scope.session.libraries.foldl (registerLibrary scope) ([], {})

/-- The graph of a session at the end of its construction. -/
def construct (scope : Scope) : Builder w :=
  let (offered, builder) := register scope
  let builder := offered.foldl (harvest scope) builder
  complete scope (offered.map Prod.fst) builder

/-- The graph of a session. -/
def convert (settings : Settings) (session : Session) : TypeGraph :=
  let builder : Builder := construct { settings, session }
  builder.graph

/-- The graph of a session, unless an access on the way is out of range. -/
def convertChecked (settings : Settings) (session : Session) : Option TypeGraph :=
  let builder : Builder Bool := construct { settings, session }
  if builder.checks then some builder.graph else none

/-- Goes through a list, unless the conversion is cancelled before one of its items. That is looked
at once for each item, and the looks are numbered from the given one on. -/
def foldUnless {σ α : Type} (isCancelled : Nat → Bool) (step : σ → α → σ) :
    Nat → σ → List α → Option σ
  | _, state, [] => some state
  | look, state, item :: items =>
      if isCancelled look then none
      else foldUnless isCancelled step (look + 1) (step state item) items

/-- The graph of a session, unless one of the looks finds the conversion cancelled. There is a look
before a library is registered, before the members of an offered type are gathered and before the
files of a library are read. -/
def convertWatching (isCancelled : Nat → Bool) (settings : Settings) (session : Session) :
    Option TypeGraph := do
  let scope : Scope := { settings, session }
  let (offered, builder) ←
    foldUnless isCancelled (registerLibrary scope) 0 ([], {}) session.libraries
  let look := session.libraries.length
  let builder : Builder ← foldUnless isCancelled (harvest scope) look builder offered
  let look := look + offered.length
  let graph ← foldUnless isCancelled (addLibrary session) look builder.graph session.libraries
  return (addLateHints scope (offered.map Prod.fst) { builder with graph }).graph

/-- The graph of a session, unless the conversion is cancelled from the start. -/
def convertUnless (isCancelled : Bool) (settings : Settings) (session : Session) :
    Option TypeGraph :=
  convertWatching (fun _ => isCancelled) settings session

end XamlAssist.Conversion
