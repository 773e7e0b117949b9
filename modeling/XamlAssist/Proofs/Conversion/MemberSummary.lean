import XamlAssist.Proofs.Conversion.Run

/-!
# Member names and what sums them up

A type lists its members and has four flags that sum the lists up. They are written together when
the members of an offered type are set, but they are also copied with a generic type, dropped when a
library takes over a type of the seed, and properties get other types later. At the end the names in
the lists of every type are distinct, and its flags are those of its lists. Main statement:
`consistent_convert`.
-/

namespace XamlAssist

namespace TypeGraph

/-- No two ordinary properties and no two attached properties have the same name. -/
structure DistinctProperties (properties : List Property) : Prop where
  ordinary : ((properties.filter (!·.isAttached)).map Property.name).Nodup
  attached : ((properties.filter (·.isAttached)).map Property.name).Nodup

/-- No two events have the same name, attached or not. -/
def DistinctEvents (events : List Event) : Prop := (events.map Event.name).Nodup

/-- The member names of a type are distinct, and its flags are those of its members. -/
structure Node.Consistent (node : Node) : Prop where
  properties : DistinctProperties node.properties
  events : DistinctEvents node.events
  hasAttachedProperties : node.hasAttachedProperties = node.properties.any (·.isAttached)
  hasAttachedEvents : node.hasAttachedEvents = node.events.any (·.isAttached)
  hasStaticGetProperties : node.hasStaticGetProperties = node.properties.any fun property =>
    property.isStatic && property.hasGetter && !property.isAttached
  hasSetProperties : node.hasSetProperties = node.properties.any (·.hasSetter)

/-- Every type of the graph, wherever it comes from, is consistent. -/
def Consistent (graph : TypeGraph) : Prop := ∀ node ∈ graph.types, node.Consistent

instance (properties : List Property) : Decidable (DistinctProperties properties) :=
  decidable_of_iff
    (((properties.filter (!·.isAttached)).map Property.name).Nodup ∧
      ((properties.filter (·.isAttached)).map Property.name).Nodup)
    ⟨fun h => ⟨h.1, h.2⟩, fun h => ⟨h.ordinary, h.attached⟩⟩

instance (events : List Event) : Decidable (DistinctEvents events) :=
  inferInstanceAs (Decidable (events.map Event.name).Nodup)

instance (node : Node) : Decidable node.Consistent :=
  decidable_of_iff
    ((DistinctProperties node.properties ∧ DistinctEvents node.events) ∧
      (node.hasAttachedProperties = node.properties.any (·.isAttached) ∧
        node.hasAttachedEvents = node.events.any (·.isAttached)) ∧
      (node.hasStaticGetProperties = node.properties.any fun property =>
        property.isStatic && property.hasGetter && !property.isAttached) ∧
      node.hasSetProperties = node.properties.any (·.hasSetter))
    ⟨fun h => ⟨h.1.1, h.1.2, h.2.1.1, h.2.1.2, h.2.2.1, h.2.2.2⟩,
      fun h => ⟨⟨h.properties, h.events⟩, ⟨h.hasAttachedProperties, h.hasAttachedEvents⟩,
        h.hasStaticGetProperties, h.hasSetProperties⟩⟩

/-! ### One more member -/

private theorem nodup_map_concat {α β : Type} {f : α → β} {items : List α} {item : α}
    (h : (items.map f).Nodup) (hitem : ∀ other ∈ items, f other ≠ f item) :
    ((items ++ [item]).map f).Nodup := by
  rw [List.map_append, List.nodup_append]
  refine ⟨h, by simp, ?_⟩
  intro name hname other hother heq
  obtain ⟨member, hmember, rfl⟩ := List.mem_map.mp hname
  obtain rfl : other = f item := by simpa using hother
  exact hitem member hmember heq

theorem DistinctProperties.concat {properties : List Property} {new : Property}
    (h : DistinctProperties properties)
    (hnew : ∀ property ∈ properties, property.isAttached = new.isAttached →
      property.name ≠ new.name) :
    DistinctProperties (properties ++ [new]) := by
  constructor
  · rw [List.filter_append]
    cases hkind : new.isAttached with
    | true => simpa [hkind] using h.ordinary
    | false =>
        simp only [hkind, List.filter_cons, Bool.not_false, if_true, List.filter_nil]
        refine nodup_map_concat h.ordinary fun property hproperty => ?_
        obtain ⟨hmem, hordinary⟩ := List.mem_filter.mp hproperty
        exact hnew property hmem (by simpa [hkind] using hordinary)
  · rw [List.filter_append]
    cases hkind : new.isAttached with
    | false => simpa [hkind] using h.attached
    | true =>
        simp only [hkind, List.filter_cons, if_true, List.filter_nil]
        refine nodup_map_concat h.attached fun property hproperty => ?_
        obtain ⟨hmem, hattached⟩ := List.mem_filter.mp hproperty
        exact hnew property hmem (by simpa [hkind] using hattached)

/-! ### Types -/

private theorem Node.consistent_of_empty {node : Node} (hproperties : node.properties = [])
    (hevents : node.events = [])
    (hflags : (node.hasAttachedProperties || node.hasAttachedEvents ||
      node.hasStaticGetProperties || node.hasSetProperties) = false) : node.Consistent := by
  simp only [Bool.or_eq_false_iff] at hflags
  obtain ⟨⟨⟨hattached, hattachedEvents⟩, hstatic⟩, hset⟩ := hflags
  constructor
  · rw [hproperties]
    exact ⟨.nil, .nil⟩
  · rw [hevents]
    exact .nil
  · rw [hattached, hproperties]
    rfl
  · rw [hattachedEvents, hevents]
    rfl
  · rw [hstatic, hproperties]
    rfl
  · rw [hset, hproperties]
    rfl

private theorem consistent_seed : seed.Consistent := by
  unfold Consistent
  decide +kernel

variable {graph : TypeGraph}

theorem Consistent.add (h : graph.Consistent) {node : Node} (hnode : node.Consistent) :
    (graph.add node).Consistent := by
  intro other hother
  rcases List.mem_append.mp hother with hother | hother
  · exact h other hother
  · exact List.mem_singleton.mp hother ▸ hnode

theorem Consistent.modify (h : graph.Consistent) (id : TypeId) {change : Node → Node}
    (hchange : ∀ node, node.Consistent → (change node).Consistent) :
    (graph.modify id change).Consistent := by
  intro node hnode
  rcases mem_types_modify hnode with hold | ⟨before, hbefore, rfl⟩
  · exact h node hold
  · exact hchange before (h before hbefore)

end TypeGraph

namespace Conversion

open TypeGraph Library

variable {scope : Scope} {builder next : Builder} {graph : TypeGraph}

/-! ### Annotations -/

private theorem consistent_retype {node : Node} (h : node.Consistent) (declaring : List TypeId) :
    Node.Consistent
      { node with properties := node.properties.map (retypeSource declaring) } := by
  have hsame (property : TypeGraph.Property) :
      ∃ type, retypeSource declaring property = { property with type } := by
    unfold retypeSource
    split
    · exact ⟨_, rfl⟩
    · exact ⟨property.type, rfl⟩
  have hkept {α : Type} (view : TypeGraph.Property → α)
      (hview : ∀ property type, view { property with type } = view property) :
      view ∘ retypeSource declaring = view := by
    funext property
    obtain ⟨type, htype⟩ := hsame property
    rw [Function.comp_apply, htype, hview]
  have hany (p : TypeGraph.Property → Bool)
      (hp : ∀ property type, p { property with type } = p property) :
      (node.properties.map (retypeSource declaring)).any p = node.properties.any p := by
    rw [List.any_map, hkept p hp]
  have hnames (p : TypeGraph.Property → Bool)
      (hp : ∀ property type, p { property with type } = p property) :
      ((node.properties.map (retypeSource declaring)).filter p).map TypeGraph.Property.name =
        (node.properties.filter p).map TypeGraph.Property.name := by
    rw [List.filter_map, hkept p hp, List.map_map, hkept TypeGraph.Property.name fun _ _ => rfl]
  constructor
  · constructor
    · rw [hnames _ fun _ _ => rfl]
      exact h.properties.ordinary
    · rw [hnames _ fun _ _ => rfl]
      exact h.properties.attached
  · exact h.events
  · rw [hany _ fun _ _ => rfl]
    exact h.hasAttachedProperties
  · exact h.hasAttachedEvents
  · rw [hany _ fun _ _ => rfl]
    exact h.hasStaticGetProperties
  · rw [hany _ fun _ _ => rfl]
    exact h.hasSetProperties

private theorem Annotates.consistent {after : TypeGraph} (hannotates : Annotates graph after)
    (h : graph.Consistent) : after.Consistent := by
  induction hannotates with
  | refl => exact h
  | tail _ hlast ih =>
      cases hlast with
      | hints hints id => exact ih.modify id fun _ hnode => { hnode with }
      | retype =>
          intro node hnode
          obtain ⟨before, hbefore, rfl⟩ := List.mem_map.mp hnode
          exact consistent_retype (ih before hbefore) _
      | resources library index => exact ih
      | register space name id => exact ih

/-! ### Requests -/

private theorem consistent_ensure (h : builder.graph.Consistent) (type : SessionType) :
    (builder.ensure type).2.graph.Consistent := by
  rcases ensure_cases builder type with ⟨id, -, heq⟩ | ⟨-, id, label, -, -, -, heq⟩ |
    ⟨-, -, heq⟩
  · rw [heq]
    exact h
  · rw [heq]
    exact h.modify id fun _ _ => Node.consistent_of_empty rfl rfl rfl
  · rw [heq]
    exact h.add (Node.consistent_of_empty rfl rfl rfl)

private theorem consistent_instanceNode (h : graph.Consistent) (name : String)
    (generic : GenericName) (definition argument : Option TypeId) :
    (Builder.instanceNode graph name generic definition argument).Consistent := by
  unfold Builder.instanceNode
  split
  · exact Node.consistent_of_empty rfl rfl rfl
  · have horiginal : ((definition.bind graph.get?).getD {}).Consistent := by
      cases hnode : definition.bind graph.get? with
      | none => exact Node.consistent_of_empty rfl rfl rfl
      | some node =>
          obtain ⟨id, -, hget⟩ := Option.bind_eq_some_iff.mp hnode
          exact h node (List.mem_of_getElem? hget)
    unfold Builder.collectionNode
    exact ⟨horiginal.properties, horiginal.events, horiginal.hasAttachedProperties,
      horiginal.hasAttachedEvents, horiginal.hasStaticGetProperties, horiginal.hasSetProperties⟩

private theorem consistent_resolvesBy (scope : Scope) :
    ResolvesBy scope fun builder next => builder.graph.Consistent → next.graph.Consistent := by
  have hplain (name : String) (builder : Builder) (h : builder.graph.Consistent) :
      (builder.resolvePlain scope name).2.graph.Consistent := by
    rcases resolvePlain_cases scope name builder with heq | ⟨type, -, heq⟩
    · rw [heq]
      exact h
    · rw [heq]
      exact consistent_ensure h type
  refine ⟨fun _ h => h, hplain, fun _ _ _ h => h, ?_⟩
  intro name generic start room reference isComplete _ _ found resolved hresolved h
  have hgraph : resolved.2.graph.Consistent := hresolved (hplain generic.definition start h)
  exact hgraph.add
    { (consistent_instanceNode hgraph name generic found.1 resolved.1) with }

private theorem Requests.consistent (hrequests : Requests scope builder next)
    (h : builder.graph.Consistent) : next.graph.Consistent := by
  induction hrequests with
  | refl => exact h
  | tail _ hlast ih =>
      cases hlast with
      | @ensure type _ => exact consistent_ensure ih type
      | @resolve room reference _ =>
          exact (consistent_resolvesBy scope).resolveWithin room reference _ ih

/-! ### Gathering -/

section Gathering

variable {access : Access} {declaring : TypeId}
  {properties : List TypeGraph.Property × Builder} {events : List TypeGraph.Event × Builder}

private theorem distinct_gatherProperty (h : DistinctProperties properties.1)
    (property : Library.Property) :
    DistinctProperties (gatherProperty scope access declaring properties property).1 := by
  unfold gatherProperty
  dsimp only
  split
  · exact h
  · next hnew =>
      simp only [Bool.or_eq_true, List.any_eq_true, decide_eq_true_eq, not_or, not_exists,
        not_and] at hnew
      exact h.concat fun other hother _ => hnew.2 other hother

private theorem distinct_gatherAttachedProperty (h : DistinctProperties properties.1)
    (type : TypeDecl) (field : Field) :
    DistinctProperties
      (gatherAttachedProperty scope access type declaring properties field).1 := by
  unfold gatherAttachedProperty
  dsimp only
  split
  · exact h
  split
  · exact h
  next hnew =>
    split
    · exact h
    · simp only [List.any_eq_true, Bool.and_eq_true, decide_eq_true_eq, not_exists, not_and]
        at hnew
      exact h.concat fun other hother hattached => hnew other hother hattached

private theorem distinct_gatherEvent (h : DistinctEvents events.1) (event : Library.Event) :
    DistinctEvents (gatherEvent scope access declaring events event).1 := by
  unfold gatherEvent
  dsimp only
  split
  · exact h
  · next hnew =>
      simp only [Bool.or_eq_true, List.any_eq_true, decide_eq_true_eq, not_or, not_exists,
        not_and] at hnew
      exact nodup_map_concat h hnew.2

private theorem distinct_gatherAttachedEvent (h : DistinctEvents events.1) (field : Field) :
    DistinctEvents (gatherAttachedEvent scope access declaring events field).1 := by
  unfold gatherAttachedEvent
  dsimp only
  split
  · exact h
  split
  · exact h
  · next hnew =>
      simp only [List.any_eq_true, decide_eq_true_eq, not_exists, not_and] at hnew
      exact nodup_map_concat h hnew

end Gathering

/-- What is gathered along a chain of base types has distinct names. -/
theorem distinct_gatherTypes (scope : Scope) (chain : List SessionType)
    (state : Gathered × Builder)
    (h : DistinctProperties state.1.properties ∧ DistinctEvents state.1.events) :
    DistinctProperties (chain.foldl (gatherType scope) state).1.properties ∧
      DistinctEvents (chain.foldl (gatherType scope) state).1.events := by
  refine List.foldlRecOn
    (motive := fun state : Gathered × Builder =>
      DistinctProperties state.1.properties ∧ DistinctEvents state.1.events)
    chain _ h fun state hstate type _ => ?_
  obtain ⟨hproperties, hevents, -⟩ := gatherType_spec scope state type
  rw [hproperties, hevents]
  constructor
  · exact List.foldlRecOn
      (motive := fun state : List TypeGraph.Property × Builder => DistinctProperties state.1)
      _ _ hstate.1 fun _ hstate property _ => distinct_gatherProperty hstate property
  · exact List.foldlRecOn
      (motive := fun state : List TypeGraph.Event × Builder => DistinctEvents state.1)
      _ _ hstate.2 fun _ hstate event _ => distinct_gatherEvent hstate event

private theorem consistent_setMembers {gathered : Gathered}
    (hproperties : DistinctProperties gathered.properties)
    (hevents : DistinctEvents gathered.events) (argument : ConstructorArgument) (node : Node) :
    (setMembers gathered argument node).Consistent :=
  ⟨hproperties, hevents, rfl, rfl, rfl, rfl⟩

private theorem consistent_harvest (h : builder.graph.Consistent) (id : TypeId) {type : SessionType}
    (htype : type ∈ scope.session.types) :
    (harvest scope builder (id, type)).graph.Consistent := by
  obtain ⟨grown, gathered, argument, graph, hchained, hgrown, hproperties, hevents, hgraph, heq⟩ :=
    harvest_spec builder id htype
  obtain ⟨hchainProperties, hchainEvents⟩ := distinct_gatherTypes scope
    (scope.baseChain type) ({}, builder) ⟨⟨.nil, .nil⟩, .nil⟩
  have hallProperties : DistinctProperties gathered.properties := by
    rw [hproperties]
    exact List.foldlRecOn
      (motive := fun state : List TypeGraph.Property × Builder => DistinctProperties state.1)
      _ _ hchainProperties fun _ hstate field _ =>
        distinct_gatherAttachedProperty hstate type.decl field
  have hallEvents : DistinctEvents gathered.events := by
    rw [hevents]
    exact List.foldlRecOn
      (motive := fun state : List TypeGraph.Event × Builder => DistinctEvents state.1)
      _ _ hchainEvents fun _ hstate field _ => distinct_gatherAttachedEvent hstate field
  have hmembers := (Requests.consistent (hchained.trans hgrown) h).modify id fun node _ =>
    consistent_setMembers hallProperties hallEvents argument node
  rw [heq]
  exact hgraph.consistent hmembers

/-! ### The whole conversion -/

private theorem consistent_register (scope : Scope) : (register scope).2.graph.Consistent := by
  refine List.foldlRecOn
    (motive := fun state : List (TypeId × SessionType) × Builder => state.2.graph.Consistent)
    _ _ consistent_seed fun state hstate library _ => ?_
  refine List.foldlRecOn
    (motive := fun state : List (TypeId × SessionType) × Builder => state.2.graph.Consistent)
    _ _ hstate fun state hstate type _ => ?_
  have hspaces := registerType_annotates library.library state type
  exact hspaces.annotates.consistent (consistent_ensure hstate type)

/-- In the graph of a session every type has distinct member names, and its flags are those that
its members give. -/
theorem consistent_convert (settings : Settings) (session : Session) :
    (convert settings session).Consistent := by
  have hregistered := registered_register ⟨settings, session⟩
  refine (complete_annotates ⟨settings, session⟩ _ _).annotates.consistent ?_
  exact List.foldlRecOn (motive := fun builder : Builder => builder.graph.Consistent)
    _ _ (consistent_register ⟨settings, session⟩) fun builder hbuilder pair hpair =>
      consistent_harvest hbuilder pair.1 (hregistered.mem_types pair hpair)

end Conversion

end XamlAssist
