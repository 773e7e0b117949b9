import XamlAssist.Conversion.Resolution

/-!
# Members of types

The members of a type are its own and those of its base types that the target sees, each name once.
A static field of a certain type together with static accessors gives an attached property, and a
static field of a certain type gives an attached event.
-/

namespace XamlAssist.Conversion

open TypeGraph Library

/-! ### Names with a meaning -/

namespace Known

def bindableBase : String := "Avalonia.AvaloniaObject"
def markupExtensionBase : String := "Avalonia.Markup.Xaml.MarkupExtension"
def attachedProperty : String := "Avalonia.AttachedProperty`1"
def routedEvent : String := "Avalonia.Interactivity.RoutedEvent"
def typedRoutedEvent : String := "Avalonia.Interactivity.RoutedEvent`1"
def routedEventArguments : String := "Avalonia.Interactivity.RoutedEventArgs"
def eventHandler : String := "System.EventHandler"
def typedEventHandler : String := "System.EventHandler`1"
def eventArguments : String := "System.EventArgs"
def contentAttribute : String := "Avalonia.Metadata.ContentAttribute"
def pseudoClassesAttribute : String := "Avalonia.Controls.Metadata.PseudoClassesAttribute"
def templatePartAttribute : String := "Avalonia.Controls.Metadata.TemplatePartAttribute"

end Known

/-- The text before `suffix`, if the name ends with it. -/
def stem? (suffix name : String) : Option String :=
  if suffix.toList.isSuffixOf name.toList then
    some (String.ofList (name.toList.take (name.toList.length - suffix.toList.length)))
  else none

/-- The text before `suffix`, if the name ends with it and is longer. -/
def properStem? (suffix name : String) : Option String :=
  (stem? suffix name).filter (!·.isEmpty)

/-! ### Members of the base types -/

variable {w : Type} [Checks w]

/-- What the types of a chain of base types have in all. -/
structure Gathered where
  properties : List TypeGraph.Property := []
  events : List TypeGraph.Event := []
  pseudoClasses : List String := []
  templateParts : List TemplatePart := []
  items : Option TypeId := none
  isBindable : Bool := false
  isMarkupExtension : Bool := false

/-- Adds a property, unless the target does not see it or there is one of its name. -/
def gatherProperty (scope : Scope) (access : Access) (declaring : TypeId)
    (state : List TypeGraph.Property × Builder w) (property : Library.Property) :
    List TypeGraph.Property × Builder w :=
  let hasGetter := property.getter.any access.allows
  let hasSetter := property.setter.any access.allows
  if !(hasGetter || hasSetter) || state.1.any (·.name = property.name) then state
  else
    let (type, builder) := state.2.resolve scope property.typeName
    let isContent := property.attributes.any (·.typeName = Known.contentAttribute)
    (state.1 ++
        [{ name := property.name, type, declaring, isStatic := property.isStatic, hasGetter,
           hasSetter, isContent }],
      builder)

/-- The type of what the handlers of an event are given. -/
def resolveArguments (scope : Scope) (handlerType : String) (builder : Builder w) :
    Option TypeId × Builder w :=
  match GenericName.ofString? handlerType with
  | some generic =>
      if generic.definition = Known.typedEventHandler then
        (builder.check (0 < generic.arguments.length)).resolve scope (generic.arguments.headD "")
      else (none, builder)
  | none =>
      if handlerType = Known.eventHandler then builder.resolve scope Known.eventArguments
      else (none, builder)

/-- Adds an event, unless the target does not see it or there is one of its name. -/
def gatherEvent (scope : Scope) (access : Access) (declaring : TypeId)
    (state : List TypeGraph.Event × Builder w) (event : Library.Event) :
    List TypeGraph.Event × Builder w :=
  if !access.allows event.visibility || state.1.any (·.name = event.name) then state
  else
    let (type, builder) := resolveArguments scope event.handlerType state.2
    (state.1 ++ [{ name := event.name, type, declaring }], builder)

/-- The pseudo-classes that an attribute declares. -/
def declaredPseudoClasses (declared : Attribute) : List String :=
  if declared.typeName = Known.pseudoClassesAttribute then declared.arguments else []

/-- Adds the part of the template that an attribute declares, unless there is one of its name. -/
def gatherTemplatePart (scope : Scope) (state : List TemplatePart × Builder w)
    (declared : Attribute) : List TemplatePart × Builder w :=
  if declared.typeName ≠ Known.templatePartAttribute then state
  else
    match declared.arguments[0]? with
    | none => state
    | some name =>
        if state.1.any (·.name = name) then state
        else
          let (type, builder) := state.2.resolveOptional scope declared.arguments[1]?
          (state.1 ++ [{ name, type }], builder)

/-- The type of the items of a type that is derived from a collection. -/
def resolveItems (scope : Scope) (baseType : Option String) (builder : Builder w) :
    Option TypeId × Builder w :=
  match baseType.bind GenericName.ofString? with
  | none => (none, builder)
  | some generic =>
      if GenericName.isCollection generic.definition then
        (builder.check (0 < generic.arguments.length)).resolve scope (generic.arguments.headD "")
      else (none, builder)

/-- Whether a type makes those derived from it markup extensions: it is the base of all of them or
has a method that provides a value. -/
def providesValue (type : SessionType) : Bool :=
  type.fullName = Known.markupExtensionBase ||
    type.decl.methods.any fun method =>
      method.name = "ProvideValue" && !method.isStatic && method.parameters.length = 1

/-- Adds what one type of a chain of base types has. -/
def gatherType (scope : Scope) (state : Gathered × Builder w) (type : SessionType) :
    Gathered × Builder w :=
  let gathered := state.1
  let (declaring, builder) := state.2.ensure type
  let access := scope.accessOf type.library
  let (properties, builder) :=
    type.decl.properties.foldl (gatherProperty scope access declaring)
      (gathered.properties, builder)
  let (events, builder) :=
    type.decl.events.foldl (gatherEvent scope access declaring) (gathered.events, builder)
  let (templateParts, builder) :=
    type.decl.attributes.foldl (gatherTemplatePart scope) (gathered.templateParts, builder)
  let (items, builder) :=
    match gathered.items with
    | some items => (some items, builder)
    | none => resolveItems scope type.decl.baseType builder
  ({ properties
     events
     pseudoClasses :=
       insertAllNew gathered.pseudoClasses (type.decl.attributes.flatMap declaredPseudoClasses)
     templateParts
     items
     isBindable := gathered.isBindable || type.fullName = Known.bindableBase
     isMarkupExtension := gathered.isMarkupExtension || providesValue type },
    builder)

/-! ### Attached members -/

/-- The first static method that the target sees with the given name and number of parameters. -/
def accessor? (access : Access) (type : TypeDecl) (name : String) (arity : Nat) : Option Method :=
  type.methods.find? fun method =>
    method.isStatic && access.allows method.visibility && method.name = name &&
      method.parameters.length = arity

/-- The type of the value of an attached property, from its accessors or else from its field. -/
def valueType? (getter setter : Option Method) (field : Field) : Option String :=
  (getter.bind (·.returnType)).or
    ((setter.bind fun method => method.parameters[1]?.map Parameter.typeName).or
      ((GenericName.ofString? field.typeName).bind (·.arguments.head?)))

/-- Whether a setter has a second parameter, or a field's type an argument, if the type of the value
is taken from there. -/
def hasValueType (getter setter : Option Method) (field : Field) : Bool :=
  (getter.bind (·.returnType)).isSome ||
    match setter with
    | some method => 1 < method.parameters.length
    | none => (GenericName.ofString? field.typeName).all (0 < ·.arguments.length)

/-- The name of the attached property that a field stands for. -/
def attachedPropertyName? (access : Access) (field : Field) : Option String :=
  if field.isStatic && access.allows field.visibility &&
      GenericName.definitionName field.typeName = Known.attachedProperty then
    properStem? "Property" field.name
  else none

/-- Adds the attached property that a field stands for, if it has an accessor and is the first of
its name. -/
def gatherAttachedProperty (scope : Scope) (access : Access) (type : TypeDecl) (declaring : TypeId)
    (state : List TypeGraph.Property × Builder w) (field : Field) :
    List TypeGraph.Property × Builder w :=
  match attachedPropertyName? access field with
  | none => state
  | some name =>
      if state.1.any fun property => property.isAttached && property.name = name then state
      else
        let getter := accessor? access type ("Get" ++ name) 1
        let setter := accessor? access type ("Set" ++ name) 2
        if getter.isNone && setter.isNone then state
        else
          let builder := state.2.check (hasValueType getter setter field)
          let (valueType, builder) := builder.resolveOptional scope (valueType? getter setter field)
          (state.1 ++
              [{ name, type := valueType, declaring, isAttached := true, isStatic := true,
                 hasGetter := getter.isSome, hasSetter := setter.isSome }],
            builder)

/-- The name of the attached event that a field stands for. -/
def attachedEventName? (access : Access) (field : Field) : Option String :=
  let definition := GenericName.definitionName field.typeName
  if field.isStatic && access.allows field.visibility &&
      (definition = Known.routedEvent || definition = Known.typedRoutedEvent) then
    let name := (stem? "Event" field.name).getD field.name
    if name.isEmpty then none else some name
  else none

/-- What names the type that the handlers of an attached event are given. -/
def eventReference (field : Field) : String :=
  match GenericName.ofString? field.typeName with
  | some generic => generic.arguments.headD ""
  | none => Known.routedEventArguments

/-- Adds the attached event that a field stands for, unless there is an event of its name. -/
def gatherAttachedEvent (scope : Scope) (access : Access) (declaring : TypeId)
    (state : List TypeGraph.Event × Builder w) (field : Field) :
    List TypeGraph.Event × Builder w :=
  match attachedEventName? access field with
  | none => state
  | some name =>
      if state.1.any (·.name = name) then state
      else
        let builder :=
          state.2.check ((GenericName.ofString? field.typeName).all (0 < ·.arguments.length))
        let (type, builder) := builder.resolve scope (eventReference field)
        (state.1 ++ [{ name, type, declaring, isAttached := true }], builder)

/-! ### Constructors -/

/-- The kinds of arguments that constructors with one parameter take. -/
structure ArgumentKinds where
  typeName : Bool := false
  object : Bool := false
  hints : Bool := false

/-- What may be written for an argument of these kinds. -/
def ArgumentKinds.argument (kinds : ArgumentKinds) : ConstructorArgument :=
  if kinds.hints then .hintValue
  else
    match kinds.typeName, kinds.object with
    | true, true => .typeNameOrObject
    | true, false => .typeName
    | false, true => .object
    | false, false => .nothing

/-- Adds the kind of argument that a constructor takes, if it is public and has one parameter. -/
def gatherArgument (scope : Scope) (state : ArgumentKinds × Builder w) (constructor : Method) :
    ArgumentKinds × Builder w :=
  match constructor.visibility.isPublic, constructor.parameters with
  | true, [parameter] =>
      let builder := state.2.check (0 < constructor.parameters.length)
      if parameter.typeName = Seed.typeName then ({ state.1 with typeName := true }, builder)
      else if parameter.typeName = Seed.objectName || parameter.typeName = Seed.stringName then
        ({ state.1 with object := true }, builder)
      else
        let (type, builder) := builder.resolve scope parameter.typeName
        let builder := builder.lookAt type.toList
        let offers := (type.bind builder.graph.get?).any (!·.hints.isEmpty)
        ({ state.1 with hints := state.1.hints || offers }, builder)
  | _, _ => state

/-! ### All members -/

/-- A type with its members. -/
def setMembers (gathered : Gathered) (argument : ConstructorArgument) (node : Node) : Node :=
  { node with
    properties := gathered.properties
    events := gathered.events
    pseudoClasses := gathered.pseudoClasses
    templateParts := gathered.templateParts
    items := gathered.items
    isBindable := gathered.isBindable
    isMarkupExtension := node.isMarkupExtension || gathered.isMarkupExtension
    constructorArgument := argument
    hasAttachedProperties := gathered.properties.any (·.isAttached)
    hasAttachedEvents := gathered.events.any (·.isAttached)
    hasStaticGetProperties :=
      gathered.properties.any fun property =>
        property.isStatic && property.hasGetter && !property.isAttached
    hasSetProperties := gathered.properties.any (·.hasSetter) }

/-- Makes a type reachable by another name in a namespace where that name is free. -/
def registerIfFree (name : String) (id : TypeId) (builder : Builder w) (space : String) :
    Builder w :=
  if (builder.graph.lookup? space name).isSome then builder else builder.register space name id

/-- Makes a markup extension reachable by its short name wherever it is reachable. -/
def registerShortName (type : SessionType) (id : TypeId) (builder : Builder w) : Builder w :=
  match properStem? "Extension" type.decl.name with
  | none => builder
  | some short =>
      (builder.graph.namespacesOf type.fullName).foldl (registerIfFree short id) builder

/-- Gathers the members of a type and sets them. -/
def harvest (scope : Scope) (builder : Builder w) (offered : TypeId × SessionType) :
    Builder w :=
  let (id, type) := offered
  let (gathered, builder) := (scope.baseChain type).foldl (gatherType scope) ({}, builder)
  let access := scope.accessOf type.library
  let (properties, builder) :=
    type.decl.fields.foldl (gatherAttachedProperty scope access type.decl id)
      (gathered.properties, builder)
  let (events, builder) :=
    type.decl.fields.foldl (gatherAttachedEvent scope access id) (gathered.events, builder)
  let (kinds, builder) := type.decl.constructors.foldl (gatherArgument scope) ({}, builder)
  let builder := builder.modify id (setMembers { gathered with properties, events } kinds.argument)
  if gathered.isMarkupExtension then registerShortName type id builder else builder

end XamlAssist.Conversion
