import XamlAssist.Proofs.Conversion.Reachability

/-!
# What the last step of a conversion does to the types

When the members of all offered types are known, hints are added and the sources of including types
become addresses of markup files; nothing else happens to a type. Main statement: `get?_convert`.
-/

namespace XamlAssist.Conversion

open TypeGraph Library

/-- Adds hints to types, one after the other. -/
def addAllHints (entries : List (TypeId × List String)) (graph : TypeGraph) : TypeGraph :=
  entries.foldl (fun graph entry => addHints entry.2 entry.1 graph) graph

/-- The addresses of resources that are offered as values, with the types of the values. -/
def addressHints (scope : Scope) (graph : TypeGraph) : List (TypeId × List String) :=
  let all := scope.session.libraries.flatMap (addresses scope)
  let markup := all.filter (scope.settings.isMarkup ·.path)
  let images := (all.filter (scope.settings.isImage ·.path)).map Address.uri
  [(Seed.resourceUriId, all.map Address.uri), (Seed.markupUriId, markup.map Address.uri),
    (Seed.imageId, images), (Seed.bitmapId, images)] ++
    (graph.find? Known.windowIcon).toList.map (·, images) ++ [(Seed.imageUriId, images)]

/-- The static properties of a type of the session, if it is there, as values of another type. -/
def staticHints (scope : Scope) (holder : String) (id : Option TypeId) :
    List (TypeId × List String) :=
  match scope.type? holder with
  | some type => id.toList.map (·, staticNames type.decl)
  | none => []

/-- The names that are offered as values: of brushes and colours, in selectors, and of attached
properties. -/
def nameHints (scope : Scope) (offered : List TypeId) (graph : TypeGraph) :
    List (TypeId × List String) :=
  staticHints scope Known.brushes (some Seed.brushId) ++
    staticHints scope Known.colors (graph.find? Known.color) ++
    [(Seed.selectorId, selectorHints offered graph),
      (Seed.propertyId, offered.flatMap (ownAttachedNames graph))]

/-- All hints that are added at last, with the types that get them. -/
def lateHints (scope : Scope) (offered : List TypeId) (graph : TypeGraph) :
    List (TypeId × List String) :=
  addressHints scope graph ++ nameHints scope offered graph

/-- The hints of a type when more were added. -/
def hintsAfter (entries : List (TypeId × List String)) (id : TypeId) (hints : List String) :
    List String :=
  entries.foldl
    (fun hints entry => if entry.1 = id then insertAllNew [] (hints ++ entry.2) else hints) hints

variable {scope : Scope} {graph next : TypeGraph}

/-! ### What does not depend on hints -/

/-- A type without its hints and the types of its properties. -/
def bare (node : Node) : Node :=
  { node with hints := [], properties := node.properties.map ({ · with type := none }) }

private theorem bare_retype (node : Node) (declaring : List TypeId) :
    bare { node with properties := node.properties.map (retypeSource declaring) } = bare node := by
  have hproperty (property : TypeGraph.Property) :
      { retypeSource declaring property with type := none } = { property with type := none } := by
    unfold retypeSource
    split <;> rfl
  simp only [bare, List.map_map]
  congr 1
  exact List.map_congr_left fun property _ => hproperty property

private theorem Annotates.map_bare (h : Annotates graph next) :
    next.types.map bare = graph.types.map bare :=
  h.map_eq (fun _ _ => rfl) bare_retype

private theorem get?_bare (graph : TypeGraph) (id : TypeId) :
    get? { types := graph.types.map bare } id = (graph.get? id).map bare := by
  rw [get?, List.getElem?_map]
  rfl

private theorem selectorHints_bare (offered : List TypeId) (graph : TypeGraph) :
    selectorHints offered { types := graph.types.map bare } = selectorHints offered graph := by
  have hclasses : pseudoClasses { types := graph.types.map bare } = graph.pseudoClasses := by
    rw [pseudoClasses, pseudoClasses, List.foldl_map]
    rfl
  rw [selectorHints, selectorHints, hclasses, List.filterMap_filterMap, List.filterMap_filterMap]
  congr 2
  funext id
  rw [get?_bare]
  cases graph.get? id with
  | none => rfl
  | some node => rfl

private theorem ownAttachedNames_bare (graph : TypeGraph) :
    ownAttachedNames { types := graph.types.map bare } = ownAttachedNames graph := by
  funext id
  rw [ownAttachedNames, ownAttachedNames, get?_bare]
  cases graph.get? id with
  | none => rfl
  | some node =>
      simp only [Option.map_some, Node.attachedProperties, bare, List.filter_map, List.map_map]
      rfl

theorem Annotates.find?_eq (h : Annotates graph next) (name : String) :
    next.find? name = graph.find? name := by
  rw [find?, find?, h.byFullName_eq]

private theorem selectorHints_eq_of_bare (h : next.types.map bare = graph.types.map bare)
    (offered : List TypeId) : selectorHints offered next = selectorHints offered graph := by
  rw [← selectorHints_bare, h, selectorHints_bare]

private theorem ownAttachedNames_eq_of_bare (h : next.types.map bare = graph.types.map bare) :
    ownAttachedNames next = ownAttachedNames graph := by
  rw [← ownAttachedNames_bare, h, ownAttachedNames_bare]

/-! ### All hints at once -/

private theorem addAllHints_append (first second : List (TypeId × List String))
    (graph : TypeGraph) :
    addAllHints (first ++ second) graph = addAllHints second (addAllHints first graph) :=
  List.foldl_append

private theorem addAllHints_concat (entries : List (TypeId × List String)) (id : TypeId)
    (hints : List String) (graph : TypeGraph) :
    addAllHints (entries ++ [(id, hints)]) graph = addHints hints id (addAllHints entries graph) :=
  addAllHints_append entries _ graph

private theorem addAllHints_annotates (entries : List (TypeId × List String)) (graph : TypeGraph) :
    Annotates graph (addAllHints entries graph) := by
  induction entries generalizing graph with
  | nil => exact .refl
  | cons entry entries ih => exact .head (.hints entry.2 entry.1) (ih _)

private theorem addHintsIfAny_eq (hints : List String) (id : Option TypeId) (builder : Builder) :
    addHintsIfAny hints id builder =
      { builder with graph := addAllHints (id.toList.map (·, hints)) builder.graph } := by
  cases id with
  | none => rfl
  | some id => rfl

private theorem addAddressHints_eq (scope : Scope) (builder : Builder) :
    addAddressHints scope builder =
      { builder with graph := addAllHints (addressHints scope builder.graph) builder.graph } := by
  have hfind (first second : List String) :
      ((builder.addHints first Seed.resourceUriId).addHints second Seed.markupUriId).graph.find?
        Known.windowIcon = builder.graph.find? Known.windowIcon :=
    Annotates.find?_eq (.tail (.single (.hints _ _)) (.hints _ _)) _
  unfold addAddressHints addressHints
  dsimp only
  rw [hfind, addHintsIfAny_eq, addAllHints_append, addAllHints_append]
  rfl

private theorem addStaticHints_eq (scope : Scope) (holder : String) (id : Option TypeId)
    (builder : Builder) :
    addStaticHints scope holder id builder =
      { builder with graph := addAllHints (staticHints scope holder id) builder.graph } := by
  unfold addStaticHints staticHints
  cases scope.type? holder with
  | none => rfl
  | some type => exact addHintsIfAny_eq _ id builder

theorem complete_eq (scope : Scope) (offered : List TypeId) (builder : Builder) :
    let graph := builder.graph
    complete scope offered builder = Known.bindingAliases.foldl registerAlias
      { builder with
        graph := addAllHints (nameHints scope offered graph)
          (retypeSources (addAllHints (addressHints scope graph)
            (addEmbedded scope.session graph))) } := by
  intro graph
  have hembedded := addEmbedded_annotates scope.session graph
  have haddresses : addressHints scope (addEmbedded scope.session graph) =
      addressHints scope graph := by
    unfold addressHints
    rw [hembedded.find?_eq]
  have hlater (entries : List (TypeId × List String)) :
      Annotates graph (addAllHints entries (retypeSources
        (addAllHints (addressHints scope graph) (addEmbedded scope.session graph)))) :=
    ((hembedded.trans (addAllHints_annotates _ _)).tail .retype).trans
      (addAllHints_annotates entries _)
  unfold complete addLateHints
  dsimp only [Builder.mapGraph, Builder.lookAt_unchecked, Builder.addHints]
  rw [addAddressHints_eq]
  dsimp only
  rw [haddresses, addStaticHints_eq, addStaticHints_eq,
    (hlater _).find?_eq, ← addAllHints_append, selectorHints_eq_of_bare (hlater _).map_bare]
  rw [← addAllHints_concat, ownAttachedNames_eq_of_bare (hlater _).map_bare, ← addAllHints_concat,
    nameHints, List.append_assoc]
  rfl

/-! ### Types -/

private theorem hintsAfter_append (first second : List (TypeId × List String)) (id : TypeId)
    (hints : List String) :
    hintsAfter (first ++ second) id hints = hintsAfter second id (hintsAfter first id hints) :=
  List.foldl_append

private theorem get?_addAllHints (entries : List (TypeId × List String)) (graph : TypeGraph)
    (id : TypeId) :
    (addAllHints entries graph).get? id =
      (graph.get? id).map fun node => { node with hints := hintsAfter entries id node.hints } := by
  induction entries generalizing graph with
  | nil => exact Option.map_id_fun'.symm ▸ rfl
  | cons entry entries ih =>
      have hrest := ih (addHints entry.2 entry.1 graph)
      rw [addHints, get?_modify, Option.map_map] at hrest
      refine hrest.trans (Option.map_congr fun node _ => ?_)
      by_cases hid : entry.1 = id
      · simp [hintsAfter, hid]
      · simp [hintsAfter, hid]

private theorem get?_retypeSources (graph : TypeGraph) (id : TypeId) :
    (retypeSources graph).get? id = (graph.get? id).map fun node =>
      { node with
        properties := node.properties.map
          (retypeSource (Known.includes.filterMap graph.find?)) } := by
  rw [retypeSources, get?, List.getElem?_map]
  rfl

private theorem types_registerAlias (builder : Builder) (names : String × String) :
    (registerAlias builder names).graph.types = builder.graph.types := by
  unfold registerAlias
  split
  · rfl
  · rw [graph_foldl_register]
    exact types_foldl_register _ _ _ builder.graph

/-- What becomes of a type at last. -/
def completed (entries : List (TypeId × List String)) (declaring : List TypeId) (id : TypeId)
    (node : Node) : Node :=
  { node with
    hints := hintsAfter entries id node.hints
    properties := node.properties.map (retypeSource declaring) }

/-- The types of a graph are those for which the members were gathered, with the hints and the types
of sources that are added at last. -/
theorem get?_convert (settings : Settings) (session : Session) (id : TypeId) :
    (convert settings session).get? id =
      ((harvested settings session).graph.get? id).map
        (completed
          (lateHints ⟨settings, session⟩ ((register ⟨settings, session⟩).1.map Prod.fst)
            (harvested settings session).graph)
          (Known.includes.filterMap (harvested settings session).graph.find?) id) := by
  have haliases (builder : Builder) :
      (Known.bindingAliases.foldl registerAlias builder).graph.types = builder.graph.types :=
    List.foldlRecOn
      (motive := fun current : Builder => current.graph.types = builder.graph.types) _ _ rfl
      fun current hcurrent names _ => (types_registerAlias current names).trans hcurrent
  have hannotates : Annotates (harvested settings session).graph
      (addAllHints (addressHints ⟨settings, session⟩ (harvested settings session).graph)
        (addEmbedded session (harvested settings session).graph)) :=
    (addEmbedded_annotates _ _).trans (addAllHints_annotates _ _)
  rw [convert_eq_complete, complete_eq, get?, haliases, ← get?, get?_addAllHints,
    get?_retypeSources, funext hannotates.find?_eq, get?_addAllHints, get?,
    (addEmbedded_frame _ _).1, ← get?, Option.map_map, Option.map_map]
  refine Option.map_congr fun node _ => ?_
  simp only [Function.comp_apply, completed, lateHints, hintsAfter_append]

end XamlAssist.Conversion
