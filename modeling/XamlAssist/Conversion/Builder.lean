import XamlAssist.Conversion.Scope
import XamlAssist.TypeGraph.Seed

/-!
# Graphs under construction

A type of the session is added to the graph when it is first met, and met again it keeps its number.

Types are looked at by their numbers and parts of names and signatures by their places. Before each
such access there is a check that it is in range. The conversion that runs keeps nothing of these
checks.
-/

namespace XamlAssist.Conversion

open TypeGraph

/-- An instance of a generic type by its name. If the instance has more levels of arguments than
are resolved, it counts with the number of levels that were left when it was met. -/
structure InstanceKey where
  name : String
  room : Option Nat
  deriving DecidableEq, Repr

/-- What a conversion keeps of its checks. -/
class Checks (w : Type) where
  start : w
  /-- Takes note of a check and whether it succeeds. -/
  note : Bool → w → w

@[default_instance]
instance uncheckedAccesses : Checks Unit where
  start := ()
  note _ _ := ()

/-- It is kept whether every check has succeeded so far. -/
instance checkedAccesses : Checks Bool where
  start := true
  note succeeds before := before && succeeds

structure Builder (w : Type := Unit) where
  graph : TypeGraph := TypeGraph.seed
  /-- The numbers of the types that were met. -/
  ids : List (Handle × TypeId) := []
  /-- What the instances that were met stand for. -/
  instances : List (InstanceKey × Option TypeId) := []
  /-- What is kept of the checks so far. -/
  checks : w := by exact Checks.start

/-- A type before its members are known. -/
def describe (type : SessionType) : Node :=
  { Node.ofNames type.decl.name type.fullName with
    qualifiedName := type.qualifiedName
    isEnum := type.decl.isEnum
    isStatic := type.decl.isStatic
    isInterface := type.decl.isInterface
    isAbstract := type.decl.isAbstract
    isGeneric := type.decl.isGeneric
    isInternal := !type.decl.visibility.isPublic
    hints := if type.decl.isEnum then type.decl.enumValues else []
    handle := some type.handle }

/-- The description of a type that takes the place of one of the seed. It keeps the seed's hints
if it has none of its own. -/
def takeOver (seeded described : Node) : Node :=
  { described with
    hints := if described.hints.isEmpty then seeded.hints else described.hints
    isNullable := described.isNullable || seeded.isNullable
    isBuiltin := true }

namespace Builder

variable {w : Type} [Checks w]

/-- Checks an access. -/
def check (builder : Builder w) (isInRange : Bool) : Builder w :=
  { builder with checks := Checks.note isInRange builder.checks }

/-- Checks that there are types with the given numbers. -/
def lookAt (builder : Builder w) (ids : List TypeId) : Builder w :=
  builder.check (ids.all (· < builder.graph.types.length))

/-- The type of the seed with the given full name and its number. -/
def seeded? (builder : Builder w) (fullName : String) : Option (TypeId × Node) := do
  let id ← builder.graph.find? fullName
  let node ← builder.graph.get? id
  if node.isBuiltin then some (id, node) else none

/-- Adds a type to the graph. -/
def add (builder : Builder w) (node : Node) : TypeId × Builder w :=
  (builder.graph.types.length, { builder with graph := builder.graph.add node })

/-- Changes the graph. -/
def mapGraph (builder : Builder w) (change : TypeGraph → TypeGraph) : Builder w :=
  { builder with graph := change builder.graph }

/-- Changes a type. -/
def modify (builder : Builder w) (id : TypeId) (change : Node → Node) : Builder w :=
  (builder.lookAt [id]).mapGraph (·.modify id change)

/-- Makes a type reachable by a name. The type that had the name before is looked at as well. -/
def register (builder : Builder w) (space name : String) (id : TypeId) : Builder w :=
  (builder.lookAt (id :: (builder.graph.lookup? space name).toList)).mapGraph
    (·.register space name id)

/-- The number of a type of the session, which is added if it was not met before. A type with the
name of one of the seed takes its place. -/
def ensure (builder : Builder w) (type : SessionType) : TypeId × Builder w :=
  match builder.ids.lookup type.handle with
  | some id => (id, builder)
  | none =>
      let builder := builder.lookAt (builder.graph.find? type.fullName).toList
      let (id, builder) :=
        match builder.seeded? type.fullName with
        | some (id, seeded) =>
            (id, builder.mapGraph (·.replace id (takeOver seeded (describe type))))
        | none => builder.add (describe type)
      (id, { builder with ids := (type.handle, id) :: builder.ids })

end Builder

end XamlAssist.Conversion
