import XamlAssist.Conversion.Builder

/-!
# Resolving references to types

A reference names a type in full. Instances of the nullable type and of the collections become types
of their own, any other instance stands for its generic type. Only so many levels of arguments are
resolved; below them a generic type stands for its instance.

An instance with more levels than are resolved is not found by its name, so that it never takes the
place of the complete one.
-/

namespace XamlAssist.Conversion

open TypeGraph

namespace Builder

variable {w : Type} [Checks w]

/-- The number of the type with the given full name, which is looked for in the graph and then in
the session. -/
def resolvePlain (scope : Scope) (name : String) (builder : Builder w) :
    Option TypeId × Builder w :=
  match builder.graph.find? name with
  | some id => (some id, builder)
  | none =>
      match scope.type? name with
      | none => (none, builder)
      | some type =>
          let (id, builder) := builder.ensure type
          (some id, builder)

/-- The short name for display of an argument. -/
def argumentName (graph : TypeGraph) (name : String) : String :=
  match (graph.find? name).bind graph.get? with
  | some node => node.name
  | none => Seed.simpleName name

/-- The name for display of an instance. -/
def instanceName (graph : TypeGraph) (generic : GenericName) : String :=
  GenericName.displayName (Seed.simpleName generic.definition)
    (generic.arguments.map (argumentName graph))

/-- The type for an instance of the nullable type. It has the hints of the type that it wraps. -/
def nullableNode (graph : TypeGraph) (name : String) (generic : GenericName)
    (definition underlying : Option TypeId) : Node :=
  { Node.ofNames (instanceName graph generic) name with
    isNullable := true
    isGeneric := true
    underlying
    definition := definition.or (some Seed.nullableId)
    hints := ((underlying.bind graph.get?).map Node.hints).getD [] }

/-- The type for an instance of a collection: the generic type, as it is known so far, with the
instance's own name and items. -/
def collectionNode (graph : TypeGraph) (name : String) (generic : GenericName)
    (definition items : Option TypeId) : Node :=
  { (definition.bind graph.get?).getD {} with
    name := instanceName graph generic
    fullName := name
    qualifiedName := name
    isGeneric := true
    isBuiltin := false
    items
    definition
    handle := none }

/-- Adds the type for an instance, which is found by its name if it is complete. -/
def addInstance (builder : Builder w) (isComplete : Bool) (node : Node) :
    Option TypeId × Builder w :=
  let (id, builder) := builder.add { node with isListed := isComplete }
  (some id, builder)

/-- What an instance is known to stand for. -/
def instance? (builder : Builder w) (isComplete : Bool) (key : InstanceKey) :
    Option (Option TypeId) :=
  match if isComplete then builder.graph.find? key.name else none with
  | some id => some (some id)
  | none => builder.instances.lookup key

/-- Remembers what an instance stands for. -/
def remember (key : InstanceKey) (resolved : Option TypeId × Builder w) :
    Option TypeId × Builder w :=
  (resolved.1,
    { resolved.2 with instances := (key, resolved.1) :: resolved.2.instances })

/-- Whether the instances of a generic type are types of their own. -/
def isSynthesized (definition : String) : Bool :=
  definition = GenericName.nullableDefinition || GenericName.isCollection definition

/-- The type for an instance of such a generic type. -/
def instanceNode (graph : TypeGraph) (name : String) (generic : GenericName)
    (definition argument : Option TypeId) : Node :=
  if generic.definition = GenericName.nullableDefinition then
    nullableNode graph name generic definition argument
  else collectionNode graph name generic definition argument

/-- What an instance stands for, unless that is known. If `resolveArgument` is missing, no level is
left for the arguments, and the instance stands for its generic type. -/
def resolveInstance (scope : Scope) (room : Nat)
    (resolveArgument : Option (String → Builder w → Option TypeId × Builder w)) (name : String)
    (generic : GenericName) (builder : Builder w) : Option TypeId × Builder w :=
  let isComplete := decide (GenericName.nesting name ≤ room)
  let key : InstanceKey := ⟨name, if isComplete then none else some room⟩
  match builder.instance? isComplete key with
  | some known => (known, builder)
  | none =>
      let (definition, builder) := builder.resolvePlain scope generic.definition
      match resolveArgument, isSynthesized generic.definition with
      | some resolveArgument, true =>
          let builder := builder.check (0 < generic.arguments.length)
          let (argument, builder) := resolveArgument (generic.arguments.headD "") builder
          let builder := builder.lookAt (generic.arguments.filterMap builder.graph.find? ++
            definition.toList ++ argument.toList)
          remember key (builder.addInstance isComplete
            (instanceNode builder.graph name generic definition argument))
      | _, _ => remember key (definition, builder)

/-- What a reference stands for, the blanks around which do not count. -/
def resolveReference (scope : Scope) (room : Nat)
    (resolveArgument : Option (String → Builder w → Option TypeId × Builder w))
    (reference : String) (builder : Builder w) : Option TypeId × Builder w :=
  let name := String.ofList (Text.trim reference.toList)
  if name.isEmpty then (none, builder)
  else
    match GenericName.ofString? name with
    | none => builder.resolvePlain scope name
    | some generic => builder.resolveInstance scope room resolveArgument name generic

/-- The number of the type that a reference stands for, of which `room` levels of arguments are
resolved. There is none if a name is not known. -/
def resolveWithin (scope : Scope) : Nat → String → Builder w → Option TypeId × Builder w
  | 0 => resolveReference scope 0 none
  | room + 1 => resolveReference scope (room + 1) (some (resolveWithin scope room))

/-- The number of the type that a reference stands for. -/
def resolve (scope : Scope) (reference : String) (builder : Builder w) :
    Option TypeId × Builder w :=
  builder.resolveWithin scope scope.settings.maxGenericDepth reference

/-- Resolves a reference that may be missing. -/
def resolveOptional (scope : Scope) (reference : Option String) (builder : Builder w) :
    Option TypeId × Builder w :=
  match reference with
  | none => (none, builder)
  | some reference => builder.resolve scope reference

end Builder

end XamlAssist.Conversion
