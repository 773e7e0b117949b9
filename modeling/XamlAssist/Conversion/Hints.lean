import XamlAssist.Conversion.Members

/-!
# Hints for values

What may be written for values of the types of the seed: addresses of resources, names of brushes
and colours, parts of selectors, and names of attached properties.
-/

namespace XamlAssist.Conversion

open TypeGraph Library

namespace Known

def brushes : String := "Avalonia.Media.Brushes"
def colors : String := "Avalonia.Media.Colors"
def color : String := "Avalonia.Media.Color"
def windowIcon : String := "Avalonia.Controls.WindowIcon"

/-- The types whose `Source` is the address of a markup file. -/
def includes : List String :=
  ["Avalonia.Markup.Xaml.Styling.StyleInclude",
   "Avalonia.Markup.Xaml.Styling.ResourceInclude",
   "Avalonia.Markup.Xaml.Styling.MergeResourceInclude"]

/-- The extensions that are written in markup under another name. -/
def bindingAliases : List (String × String) :=
  [("Avalonia.Markup.Xaml.MarkupExtensions.ReflectionBindingExtension", "Binding"),
   ("Avalonia.Markup.Xaml.MarkupExtensions.CompiledBindingExtension", "CompiledBinding")]

end Known

/-- Adds hints to a type; each hint is there once. -/
def addHints (hints : List String) (id : TypeId) (graph : TypeGraph) : TypeGraph :=
  graph.modify id fun node => { node with hints := insertAllNew [] (node.hints ++ hints) }

variable {w : Type} [Checks w]

/-- Adds hints to a type of the graph. -/
def Builder.addHints (hints : List String) (id : TypeId) (builder : Builder w) : Builder w :=
  (builder.lookAt [id]).mapGraph (Conversion.addHints hints id)

/-- Adds hints to a type that may be missing. -/
def addHintsIfAny (hints : List String) (id : Option TypeId) (builder : Builder w) : Builder w :=
  match id with
  | some id => builder.addHints hints id
  | none => builder

/-! ### Resources -/

/-- The address of a resource with the name or path that tells what it holds. -/
structure Address where
  uri : String
  path : String
  deriving DecidableEq, Repr

/-- The index of the embedded files of a library, if it has such a resource. The index is empty if
it cannot be read. -/
def embedded? (session : Session) (library : SessionLibrary) : Option Resource.Index :=
  if library.library.resources.any (·.name = Resource.resourceName) then
    match library.openResource session.files Resource.resourceName with
    | .ok (some (.bytes content)) => some ((Resource.Index.ofBytes content).toOption.getD {})
    | _ => some {}
  else none

/-- The addresses of the resources of a library: those of its own, then its embedded files. -/
def addresses (scope : Scope) (library : SessionLibrary) : List Address :=
  let names := (library.library.resources.map Resource.name).filter (!scope.settings.ignores ·)
  let paths := ((embedded? scope.session library).map Resource.Index.paths).getD []
  names.map (fun name => ⟨"resm:" ++ name ++ "?assembly=" ++ library.name, name⟩) ++
    paths.map fun path => ⟨"avares://" ++ library.name ++ path, path⟩

/-- Sets the embedded files of one library, if it has some. -/
def addLibrary (session : Session) (graph : TypeGraph) (library : SessionLibrary) : TypeGraph :=
  match embedded? session library with
  | some index => graph.setResources library.name index
  | none => graph

/-- Sets the embedded files of each library that has some. -/
def addEmbedded (session : Session) (graph : TypeGraph) : TypeGraph :=
  session.libraries.foldl (addLibrary session) graph

/-- Offers the addresses of resources where resources, markup files and images are expected. -/
def addAddressHints (scope : Scope) (builder : Builder w) : Builder w :=
  let all := scope.session.libraries.flatMap (addresses scope)
  let markup := all.filter (scope.settings.isMarkup ·.path)
  let images := (all.filter (scope.settings.isImage ·.path)).map Address.uri
  let builder := builder.addHints (all.map Address.uri) Seed.resourceUriId
  let builder := builder.addHints (markup.map Address.uri) Seed.markupUriId
  let windowIcon := builder.graph.find? Known.windowIcon
  let builder := builder.addHints images Seed.imageId
  let builder := builder.addHints images Seed.bitmapId
  let builder := addHintsIfAny images windowIcon builder
  builder.addHints images Seed.imageUriId

/-- A property that is the address of a markup file if one of the given types declares it as its
source. -/
def retypeSource (declaring : List TypeId) (property : TypeGraph.Property) : TypeGraph.Property :=
  if property.name = "Source" && declaring.contains property.declaring then
    { property with type := some Seed.markupUriId }
  else property

/-- Makes the sources of the including types addresses of markup files. -/
def retypeSources (graph : TypeGraph) : TypeGraph :=
  let declaring := Known.includes.filterMap graph.find?
  { graph with
    types := graph.types.map fun node =>
      { node with properties := node.properties.map (retypeSource declaring) } }

/-! ### Names -/

/-- The names of the static properties of a type that everyone may read. -/
def staticNames (type : TypeDecl) : List String :=
  (type.properties.filter fun property => property.isStatic && property.getter.any (·.isPublic)).map
    Library.Property.name

/-- Offers the static properties of a type of the session as values of another type. -/
def addStaticHints (scope : Scope) (holder : String) (id : Option TypeId) (builder : Builder w) :
    Builder w :=
  match scope.type? holder with
  | some type => addHintsIfAny (staticNames type.decl) id builder
  | none => builder

/-- The names for selectors: all pseudo-classes, then the offered types that can be bound to. -/
def selectorHints (offered : List TypeId) (graph : TypeGraph) : List String :=
  graph.pseudoClasses ++
    (offered.filterMap graph.get?).filterMap fun node =>
      if node.isBindable then some node.name else none

/-- The attached properties that a type declares, with its name. -/
def ownAttachedNames (graph : TypeGraph) (id : TypeId) : List String :=
  match graph.get? id with
  | none => []
  | some node =>
      (node.attachedProperties.filter (·.declaring = id)).map fun property =>
        node.name ++ "." ++ property.name

/-- Makes a binding extension reachable by its alias wherever it is reachable. -/
def registerAlias (builder : Builder w) (names : String × String) : Builder w :=
  match builder.graph.find? names.1 with
  | none => builder
  | some id =>
      (builder.graph.namespacesOf names.1).foldl
        (fun builder space => builder.register space names.2 id) builder

/-- Adds the hints that need the members of all offered types and the aliases of the bindings. -/
def addLateHints (scope : Scope) (offered : List TypeId) (builder : Builder w) : Builder w :=
  let builder := addAddressHints scope builder
  let builder := builder.mapGraph retypeSources
  let builder := addStaticHints scope Known.brushes (some Seed.brushId) builder
  let builder := addStaticHints scope Known.colors (builder.graph.find? Known.color) builder
  let builder := builder.lookAt offered
  let builder := builder.addHints (selectorHints offered builder.graph) Seed.selectorId
  let builder := builder.lookAt offered
  let builder := builder.addHints (offered.flatMap (ownAttachedNames builder.graph)) Seed.propertyId
  Known.bindingAliases.foldl registerAlias builder

/-- The last step of a conversion, when the members of all offered types are known. -/
def complete (scope : Scope) (offered : List TypeId) (builder : Builder w) : Builder w :=
  addLateHints scope offered (builder.mapGraph (addEmbedded scope.session))

end XamlAssist.Conversion
