import XamlAssist.Ordered
import XamlAssist.Resource.Index
import XamlAssist.Session

/-!
# The graph of types

The types that markup can refer to, with their members. Types refer to each other by their number
in the graph. A namespace of markup maps simple names to types, and from the full name of a type
one gets back to the namespaces that it is reachable through.
-/

namespace XamlAssist.TypeGraph

/-- The number of a type in its graph. It is stored in 32 bits, which is enough as long as a graph
has fewer than `2 ^ 32` types. -/
abbrev TypeId := Nat

/-- What may be written for the only argument of a type's constructor. -/
inductive ConstructorArgument
  | nothing
  | typeName
  | object
  | typeNameOrObject
  /-- One of the hint values of the argument's type. -/
  | hintValue
  deriving DecidableEq, Repr

/-- A named part of a control's template. -/
structure TemplatePart where
  name : String
  type : Option TypeId
  deriving DecidableEq, Repr

structure Property where
  name : String
  /-- The type of its value, if that is known. -/
  type : Option TypeId
  /-- The type that declares it. -/
  declaring : TypeId
  isAttached : Bool := false
  isStatic : Bool := false
  hasGetter : Bool := false
  hasSetter : Bool := false
  /-- Whether it takes the content of an element. -/
  isContent : Bool := false
  deriving DecidableEq, Repr

structure Event where
  name : String
  /-- The type of what its handlers are given, if that is known. -/
  type : Option TypeId
  /-- The type that declares it. -/
  declaring : TypeId
  isAttached : Bool := false
  deriving DecidableEq, Repr

/-- A type of the graph. -/
structure Node where
  name : String := ""
  fullName : String := ""
  /-- The full name with that of the library. -/
  qualifiedName : String := ""
  /-- Whether it is listed under its full name when it is added. -/
  isListed : Bool := true
  isEnum : Bool := false
  isStatic : Bool := false
  isInterface : Bool := false
  isAbstract : Bool := false
  isGeneric : Bool := false
  isInternal : Bool := false
  isMarkupExtension : Bool := false
  /-- Whether its properties can be bound to. -/
  isBindable : Bool := false
  isNullable : Bool := false
  isDirective : Bool := false
  isBuiltin : Bool := false
  hasAttachedProperties : Bool := false
  hasAttachedEvents : Bool := false
  hasStaticGetProperties : Bool := false
  hasSetProperties : Bool := false
  /-- Texts that may be written for a value of the type. -/
  hints : List String := []
  pseudoClasses : List String := []
  properties : List Property := []
  events : List Event := []
  /-- The type that a nullable type wraps, or the type of a directive's value. -/
  underlying : Option TypeId := none
  /-- The type of the items of a collection. -/
  items : Option TypeId := none
  /-- The generic type that this is an instance of. -/
  definition : Option TypeId := none
  templateParts : List TemplatePart := []
  constructorArgument : ConstructorArgument := .nothing
  /-- The type of the session that this came from. -/
  handle : Option Handle := none
  deriving DecidableEq, Repr

namespace Node

/-- A type that is known by its names alone. -/
def ofNames (name fullName : String) : Node := { name, fullName, qualifiedName := fullName }

def property? (node : Node) (name : String) : Option Property :=
  node.properties.find? (·.name = name)

def event? (node : Node) (name : String) : Option Event := node.events.find? (·.name = name)

/-- The property that takes the content of an element. -/
def contentProperty? (node : Node) : Option Property := node.properties.find? (·.isContent)

def attachedProperties (node : Node) : List Property := node.properties.filter (·.isAttached)

end Node

end TypeGraph

/-- The types of a session. -/
structure TypeGraph where
  /-- The types by their numbers. -/
  types : List TypeGraph.Node := []
  /-- For each full name the type that was listed under it first. -/
  byFullName : OrderedMap String TypeGraph.TypeId := {}
  /-- For each namespace the types by their simple names. -/
  namespaces : OrderedMap String (OrderedMap String TypeGraph.TypeId) := {}
  /-- For each full name the namespaces that a type of that name is reachable through. -/
  reachable : OrderedMap String (List String) := {}
  /-- The embedded files of each library. -/
  resources : OrderedMap String Resource.Index := {}
  /-- For each class its library and its markup file. -/
  classes : OrderedMap String (String × String) := {}
  deriving DecidableEq, Repr

namespace TypeGraph

/-! ### Asking -/

/-- The type that is listed under a full name. -/
def find? (graph : TypeGraph) (fullName : String) : Option TypeId := graph.byFullName.get? fullName

def get? (graph : TypeGraph) (id : TypeId) : Option Node := graph.types[id]?

/-- The type of a simple name in a namespace. -/
def lookup? (graph : TypeGraph) (space name : String) : Option TypeId :=
  (graph.namespaces.get? space).bind (·.get? name)

/-- The simple names of a namespace with their types. -/
def typesIn (graph : TypeGraph) (space : String) : List (String × TypeId) :=
  ((graph.namespaces.get? space).map OrderedMap.entries).getD []

/-- The namespaces that a type is reachable through, in the order of registration. -/
def namespacesOf (graph : TypeGraph) (fullName : String) : List String :=
  (graph.reachable.get? fullName).getD []

/-- The pseudo-classes of all types, each once. -/
def pseudoClasses (graph : TypeGraph) : List String :=
  graph.types.foldl (fun seen node => insertAllNew seen node.pseudoClasses) []

/-- The library and the markup file of a class. -/
def resourceForClass? (graph : TypeGraph) (name : String) : Option (String × String) :=
  graph.classes.get? name

def hasHandles (graph : TypeGraph) : Bool := graph.types.any (·.handle.isSome)

/-- The class of a namespace among the spellings that may be used for it: an alias comes before a
`using:` and that before a `clr-namespace:`. -/
def spellingClass (space : String) : Nat :=
  if "clr-namespace:".toList.isPrefixOf space.toList then 2
  else if "using:".toList.isPrefixOf space.toList then 1
  else 0

/-- Whether one spelling is better than another: by its class, then by its length in bytes. -/
def isBetterSpelling (a b : String) : Bool :=
  spellingClass a < spellingClass b ||
    (spellingClass a = spellingClass b && a.utf8ByteSize < b.utf8ByteSize)

/-- The best of several spellings, the first if they are equal. -/
def bestSpelling? : List String → Option String
  | [] => none
  | space :: spaces =>
      some (spaces.foldl (fun best other => if isBetterSpelling other best then other else best)
        space)

/-- The namespace to declare for a type. -/
def preferredNamespace? (graph : TypeGraph) (fullName : String) : Option String :=
  bestSpelling? (graph.namespacesOf fullName)

/-! ### Building -/

/-- Adds a type; its number is the number of types before it. -/
def add (graph : TypeGraph) (node : Node) : TypeGraph :=
  { graph with
    types := graph.types ++ [node]
    byFullName :=
      if node.isListed then graph.byFullName.insertIfNew node.fullName graph.types.length
      else graph.byFullName }

/-- Puts a type in the place of another one, whose number it gets. -/
def replace (graph : TypeGraph) (id : TypeId) (node : Node) : TypeGraph :=
  { graph with
    types := graph.types.set id node
    byFullName := graph.byFullName.insertIfNew node.fullName id }

theorem get?_add_of_lt (graph : TypeGraph) (node : Node) {id : TypeId}
    (h : id < graph.types.length) : (graph.add node).get? id = graph.get? id := by
  simp [add, get?, List.getElem?_append_left h]

@[simp]
theorem get?_add_length (graph : TypeGraph) (node : Node) :
    (graph.add node).get? graph.types.length = some node := by
  simp [add, get?]

/-- Changes a type in its place. -/
def modify (graph : TypeGraph) (id : TypeId) (change : Node → Node) : TypeGraph :=
  { graph with types := graph.types.modify id change }

/-- Takes a namespace from those that a full name is reachable through. -/
def forget (reachable : OrderedMap String (List String)) (fullName space : String) :
    OrderedMap String (List String) :=
  match reachable.get? fullName with
  | none => reachable
  | some spaces => reachable.insert fullName (spaces.filter (· ≠ space))

/-- The full name of a type. -/
def fullNameOf (graph : TypeGraph) (id : TypeId) : String :=
  ((graph.get? id).map Node.fullName).getD ""

/-- Makes a type reachable by a simple name in a namespace, where the last type of a name counts.
The type that had the name before is no longer reachable through the namespace, unless it has
another name there. -/
def register (graph : TypeGraph) (space name : String) (id : TypeId) : TypeGraph :=
  let before := (graph.namespaces.get? space).getD {}
  let names := before.insert name id
  let reachable :=
    match before.get? name with
    | none => graph.reachable
    | some previous =>
        if previous ≠ id && !names.values.contains previous then
          forget graph.reachable (graph.fullNameOf previous) space
        else graph.reachable
  let fullName := graph.fullNameOf id
  let spaces := (reachable.get? fullName).getD []
  { graph with
    namespaces := graph.namespaces.insert space names
    reachable := reachable.insert fullName (insertNew spaces space) }

/-- Sets the embedded files of a library. The first library that names a class has it. -/
def setResources (graph : TypeGraph) (library : String) (index : Resource.Index) : TypeGraph :=
  { graph with
    resources := graph.resources.insert library index
    classes := index.classes.entries.foldl
      (fun classes (name, path) => classes.insertIfNew name (library, path)) graph.classes }

/-- The graph without its ties to the session. -/
def releaseHandles (graph : TypeGraph) : TypeGraph :=
  { graph with types := graph.types.map ({ · with handle := none }) }

end TypeGraph

end XamlAssist
