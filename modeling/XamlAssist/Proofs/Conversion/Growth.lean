import Mathlib.Logic.Relation
import XamlAssist.Conversion.Members
import XamlAssist.Proofs.TypeGraph.Frame

/-!
# How a graph grows

Resolving references and gathering members only lets a graph grow: types of the session are met and
instances of generic types are added. Main statements: `resolveWithin_grows`, and `gatherType_spec`
for one type of a chain of base types.
-/

namespace XamlAssist.Conversion

open TypeGraph Library

/-! ### Checks -/

/-- The conversion that runs keeps nothing of its checks. -/
@[simp]
theorem Builder.lookAt_unchecked (builder : Builder) (ids : List TypeId) :
    builder.lookAt ids = builder :=
  rfl

/-! ### Growing -/

/-- A type that stands for an instance of a generic type: it comes neither from the session nor from
the seed. -/
structure IsInstance (node : Node) : Prop where
  handle : node.handle = none
  isBuiltin : node.isBuiltin = false
  name : (GenericName.ofString? node.fullName).isSome = true

theorem exists_isInstance {α : Type} {view : Node → α} {graph : TypeGraph} {id : TypeId}
    {name : String} {value : α} (hname : (GenericName.ofString? name).isSome = true)
    (h : (graph.get? id).map (fun node => (node.handle, node.isBuiltin, node.fullName, view node)) =
      some (none, false, name, value)) :
    ∃ node, graph.get? id = some node ∧ IsInstance node ∧ node.fullName = name ∧
      view node = value := by
  obtain ⟨node, hnode, hfields⟩ := Option.map_eq_some_iff.mp h
  simp only [Prod.mk.injEq] at hfields
  obtain ⟨hhandle, hbuiltin, rfl, hvalue⟩ := hfields
  exact ⟨node, hnode, ⟨hhandle, hbuiltin, hname⟩, rfl, hvalue⟩

/-- The ways in which a graph grows by itself. -/
inductive Grow (scope : Scope) : Builder → Builder → Prop
  | ensure {builder : Builder} {type : SessionType} :
      type ∈ scope.session.types → Grow scope builder (builder.ensure type).2
  | add {builder : Builder} {node : Node} :
      IsInstance node → Grow scope builder (builder.add node).2
  | remember {builder : Builder} (entry : InstanceKey × Option TypeId) :
      Grow scope builder { builder with instances := entry :: builder.instances }

/-- The second graph is grown from the first. -/
abbrev Grows (scope : Scope) : Builder → Builder → Prop := Relation.ReflTransGen (Grow scope)

variable {scope : Scope}

theorem mem_types_of_type? {name : String} {type : SessionType} (h : scope.type? name = some type) :
    type ∈ scope.session.types :=
  List.mem_of_find?_eq_some h

/-! ### Meeting a type -/

/-- The label of a type of the session. -/
def metLabel (type : SessionType) (isBuiltin : Bool) : Label :=
  ⟨true, type.fullName, isBuiltin, some type.handle⟩

theorem labels_takeOver (graph : TypeGraph) (id : TypeId) (type : SessionType) :
    (graph.modify id fun seeded => takeOver seeded (describe type)).labels =
      graph.labels.set id (metLabel type true) :=
  labels_modify fun _ _ => rfl

/-- A type that was met before is there, one of the seed is taken over, and any other is added. -/
theorem ensure_cases (builder : Builder) (type : SessionType) :
    (∃ id, builder.ids.lookup type.handle = some id ∧ builder.ensure type = (id, builder)) ∨
      (builder.ids.lookup type.handle = none ∧
        ∃ id label, builder.graph.labels[id]? = some label ∧
          builder.graph.find? type.fullName = some id ∧ label.isBuiltin = true ∧
          builder.ensure type =
            (id, { builder with
              graph := builder.graph.modify id fun seeded => takeOver seeded (describe type)
              ids := (type.handle, id) :: builder.ids })) ∨
      (builder.ids.lookup type.handle = none ∧ builder.seeded? type.fullName = none ∧
        builder.ensure type =
          (builder.graph.types.length, { builder with
            graph := builder.graph.add (describe type)
            ids := (type.handle, builder.graph.types.length) :: builder.ids })) := by
  rw [Builder.ensure]
  cases hid : builder.ids.lookup type.handle with
  | some id => exact .inl ⟨id, rfl, rfl⟩
  | none =>
      right
      dsimp only [Builder.lookAt_unchecked]
      cases hseeded : builder.seeded? type.fullName with
      | none => exact .inr ⟨rfl, rfl, rfl⟩
      | some entry =>
          left
          obtain ⟨id, hfind, hrest⟩ := Option.bind_eq_some_iff.mp hseeded
          obtain ⟨node, hnode, hbuiltin⟩ := Option.bind_eq_some_iff.mp hrest
          split at hbuiltin
          · next hnodeBuiltin =>
              obtain rfl := Option.some.inj hbuiltin
              have hlabel : builder.graph.labels[id]? = some node.label := by
                rw [labels_getElem?, hnode, Option.map_some]
              have hreplace := @replace_eq_modify _ _ _ _
                (fun seeded => takeOver seeded (describe type)) hnode hfind
              refine ⟨rfl, id, node.label, hlabel, hfind, hnodeBuiltin, ?_⟩
              dsimp only [Builder.mapGraph]
              rw [hreplace]
          · exact absurd hbuiltin (by simp)

theorem lookup_ensure (builder : Builder) (type : SessionType) :
    (builder.ensure type).2.ids.lookup type.handle = some (builder.ensure type).1 := by
  rcases ensure_cases builder type with ⟨id, hid, heq⟩ | ⟨-, id, label, -, -, -, heq⟩ |
    ⟨-, -, heq⟩
  · rw [heq]
    exact hid
  · rw [heq, List.lookup_cons, beq_self_eq_true]
  · rw [heq, List.lookup_cons, beq_self_eq_true]

theorem Grow.lookup {builder next : Builder} (hgrow : Grow scope builder next) {handle : Handle}
    {id : TypeId} (h : builder.ids.lookup handle = some id) : next.ids.lookup handle = some id := by
  cases hgrow with
  | remember entry => exact h
  | add _ => exact h
  | @ensure type htype =>
      have hcons {other : TypeId} (hnew : builder.ids.lookup type.handle = none) :
          ((type.handle, other) :: builder.ids).lookup handle = some id := by
        have hne : (handle == type.handle) = false := by
          rw [beq_eq_false_iff_ne]
          rintro rfl
          exact Option.some_ne_none _ (h.symm.trans hnew)
        rw [List.lookup_cons, hne, h]
      rcases ensure_cases builder type with ⟨other, -, heq⟩ |
        ⟨hnew, other, label, -, -, -, heq⟩ | ⟨hnew, -, heq⟩
      · rw [heq]
        exact h
      · rw [heq]
        exact hcons hnew
      · rw [heq]
        exact hcons hnew

theorem Grows.lookup {builder next : Builder} (hgrows : Grows scope builder next) {handle : Handle}
    {id : TypeId} (h : builder.ids.lookup handle = some id) : next.ids.lookup handle = some id := by
  induction hgrows with
  | refl => exact h
  | tail _ hlast ih => exact hlast.lookup ih

/-! ### References -/

/-- A relation that holds between the states before and after a reference is resolved: it follows
what resolving does, where the argument of an instance comes before the instance. -/
structure ResolvesBy (scope : Scope) (rel : Builder → Builder → Prop) : Prop where
  refl : ∀ builder, rel builder builder
  plain : ∀ name (builder : Builder), rel builder (builder.resolvePlain scope name).2
  remember : ∀ (entry : InstanceKey × Option TypeId) {start builder : Builder},
    rel start builder → rel start { builder with instances := entry :: builder.instances }
  add : ∀ {name : String} {generic : GenericName} (start : Builder) (room : Nat)
      (reference : String) (isComplete : Bool), GenericName.ofString? name = some generic →
      Builder.isSynthesized generic.definition = true →
    let found := start.resolvePlain scope generic.definition
    let resolved := found.2.resolveWithin scope room reference
    rel found.2 resolved.2 →
      rel start (resolved.2.addInstance isComplete
        (Builder.instanceNode resolved.2.graph name generic found.1 resolved.1)).2

section ResolvesBy

variable {rel : Builder → Builder → Prop} {room : Nat}
  {resolveArgument : Option (String → Builder → Option TypeId × Builder)}

theorem ResolvesBy.resolveInstance (h : ResolvesBy scope rel)
    (hargument : ∀ resolve ∈ resolveArgument, ∃ less, resolve = Builder.resolveWithin scope less ∧
      ∀ reference builder, rel builder (resolve reference builder).2)
    {name : String} {generic : GenericName} (hname : GenericName.ofString? name = some generic)
    (builder : Builder) :
    rel builder (builder.resolveInstance scope room resolveArgument name generic).2 := by
  unfold Builder.resolveInstance
  dsimp only
  split
  · exact h.refl builder
  split
  · next resolve hsynthesized =>
      obtain ⟨less, rfl, hresolve⟩ := hargument resolve rfl
      exact h.remember _ (h.add builder less _ _ hname hsynthesized (hresolve _ _))
  · exact h.remember _ (h.plain generic.definition builder)

theorem ResolvesBy.resolveReference (h : ResolvesBy scope rel)
    (hargument : ∀ resolve ∈ resolveArgument, ∃ less, resolve = Builder.resolveWithin scope less ∧
      ∀ reference builder, rel builder (resolve reference builder).2)
    (reference : String) (builder : Builder) :
    rel builder (builder.resolveReference scope room resolveArgument reference).2 := by
  unfold Builder.resolveReference
  dsimp only
  split
  · exact h.refl builder
  split
  · exact h.plain _ builder
  · next hname => exact h.resolveInstance hargument hname builder

theorem ResolvesBy.resolveWithin (h : ResolvesBy scope rel) (room : Nat) (reference : String)
    (builder : Builder) : rel builder (builder.resolveWithin scope room reference).2 := by
  induction room generalizing reference builder with
  | zero => exact h.resolveReference (fun _ hnone => absurd hnone (by simp)) reference builder
  | succ room ih =>
      refine h.resolveReference ?_ reference builder
      intro resolve hresolve
      obtain rfl := Option.some.inj hresolve
      exact ⟨room, rfl, ih⟩

end ResolvesBy

theorem resolvePlain_cases (scope : Scope) (name : String) (builder : Builder) :
    (builder.resolvePlain scope name).2 = builder ∨
      ∃ type ∈ scope.session.types,
        (builder.resolvePlain scope name).2 = (builder.ensure type).2 := by
  rw [Builder.resolvePlain]
  cases builder.graph.find? name with
  | some id => exact .inl rfl
  | none =>
      cases htype : scope.type? name with
      | none => exact .inl rfl
      | some type => exact .inr ⟨type, mem_types_of_type? htype, rfl⟩

theorem resolvePlain_grows (scope : Scope) (name : String) (builder : Builder) :
    Grows scope builder (builder.resolvePlain scope name).2 := by
  rcases resolvePlain_cases scope name builder with heq | ⟨type, htype, heq⟩
  · rw [heq]
  · rw [heq]
    exact .single (.ensure htype)

theorem instanceNode_isInstance (graph : TypeGraph) {name : String} {generic : GenericName}
    (h : GenericName.ofString? name = some generic) (definition argument : Option TypeId) :
    IsInstance (Builder.instanceNode graph name generic definition argument) := by
  unfold Builder.instanceNode
  split <;> exact ⟨rfl, rfl, Option.isSome_of_eq_some h⟩

theorem fullName_instanceNode (graph : TypeGraph) (name : String) (generic : GenericName)
    (definition argument : Option TypeId) :
    (Builder.instanceNode graph name generic definition argument).fullName = name := by
  unfold Builder.instanceNode
  split <;> rfl

private theorem grows_resolvesBy (scope : Scope) : ResolvesBy scope (Grows scope) where
  refl := fun _ => .refl
  plain := resolvePlain_grows scope
  remember := fun entry _ _ h => h.tail (.remember entry)
  add := by
    intro name generic start room reference isComplete hname _ found resolved hresolved
    have hnode := instanceNode_isInstance resolved.2.graph hname found.1 resolved.1
    have hgrows := (resolvePlain_grows scope generic.definition start).trans hresolved
    exact hgrows.tail (.add ⟨hnode.handle, hnode.isBuiltin, hnode.name⟩)

theorem resolveWithin_grows (scope : Scope) (room : Nat) (reference : String) (builder : Builder) :
    Grows scope builder (builder.resolveWithin scope room reference).2 :=
  (grows_resolvesBy scope).resolveWithin room reference builder

/-! ### Requests -/

/-- What gathering members asks of the builder: the number of a type of the session or of the type
that a reference stands for. -/
inductive Request (scope : Scope) : Builder → Builder → Prop
  | ensure {builder : Builder} {type : SessionType} :
      type ∈ scope.session.types → Request scope builder (builder.ensure type).2
  | resolve {builder : Builder} {room : Nat} (reference : String) :
      room ≤ scope.settings.maxGenericDepth →
        Request scope builder (builder.resolveWithin scope room reference).2

/-- The second graph comes from the first by requests alone. -/
abbrev Requests (scope : Scope) : Builder → Builder → Prop := Relation.ReflTransGen (Request scope)

theorem Requests.grows {builder next : Builder} (h : Requests scope builder next) :
    Grows scope builder next := by
  induction h with
  | refl => exact .refl
  | tail _ hlast ih =>
      cases hlast with
      | ensure htype => exact ih.tail (.ensure htype)
      | resolve reference _ => exact ih.trans (resolveWithin_grows scope _ reference _)

theorem ensure_requests (builder : Builder) {type : SessionType}
    (h : type ∈ scope.session.types) : Requests scope builder (builder.ensure type).2 :=
  .single (.ensure h)

theorem resolve_requests (scope : Scope) (reference : String) (builder : Builder) :
    Requests scope builder (builder.resolve scope reference).2 :=
  .single (.resolve reference (Nat.le_refl _))

private theorem resolveOptional_requests (scope : Scope) (reference : Option String)
    (builder : Builder) :
    Requests scope builder (builder.resolveOptional scope reference).2 := by
  cases reference with
  | none => exact .refl
  | some reference => exact resolve_requests scope reference builder

/-! ### Members -/

theorem foldl_requests {σ α : Type} {step : σ × Builder → α → σ × Builder} {items : List α}
    (hstep : ∀ state, ∀ item ∈ items, Requests scope state.2 (step state item).2) (first : σ)
    {start builder : Builder} (h : Requests scope start builder) :
    Requests scope start (items.foldl step (first, builder)).2 := by
  induction items generalizing first builder with
  | nil => exact h
  | cons item items ih =>
      have hnext := h.trans (hstep (first, builder) item List.mem_cons_self)
      exact ih (fun state other hmem => hstep state other (List.mem_cons_of_mem item hmem)) _ hnext

private theorem gatherProperty_requests (scope : Scope) (access : Access) (declaring : TypeId)
    (state : List TypeGraph.Property × Builder) (property : Library.Property) :
    Requests scope state.2 (gatherProperty scope access declaring state property).2 := by
  unfold gatherProperty
  dsimp only
  split
  · exact .refl
  · exact resolve_requests scope _ state.2

theorem resolveArguments_requests (scope : Scope) (handlerType : String) (builder : Builder) :
    Requests scope builder (resolveArguments scope handlerType builder).2 := by
  unfold resolveArguments
  split
  · split
    · exact resolve_requests scope _ builder
    · exact .refl
  · split
    · exact resolve_requests scope _ builder
    · exact .refl

private theorem gatherEvent_requests (scope : Scope) (access : Access) (declaring : TypeId)
    (state : List TypeGraph.Event × Builder) (event : Library.Event) :
    Requests scope state.2 (gatherEvent scope access declaring state event).2 := by
  unfold gatherEvent
  split
  · exact .refl
  · exact resolveArguments_requests scope _ state.2

private theorem gatherTemplatePart_requests (scope : Scope) (state : List TemplatePart × Builder)
    (declared : Attribute) :
    Requests scope state.2 (gatherTemplatePart scope state declared).2 := by
  unfold gatherTemplatePart
  split
  · exact .refl
  split
  · exact .refl
  split
  · exact .refl
  · exact resolveOptional_requests scope _ state.2

private theorem resolveItems_requests (scope : Scope) (baseType : Option String)
    (builder : Builder) :
    Requests scope builder (resolveItems scope baseType builder).2 := by
  unfold resolveItems
  split
  · exact .refl
  split
  · exact resolve_requests scope _ builder
  · exact .refl

theorem gatherAttachedProperty_requests (scope : Scope) (access : Access) (type : TypeDecl)
    (declaring : TypeId) (state : List TypeGraph.Property × Builder) (field : Field) :
    Requests scope state.2 (gatherAttachedProperty scope access type declaring state field).2 := by
  unfold gatherAttachedProperty
  dsimp only
  split
  · exact .refl
  split
  · exact .refl
  split
  · exact .refl
  · exact resolveOptional_requests scope _ state.2

theorem gatherAttachedEvent_requests (scope : Scope) (access : Access) (declaring : TypeId)
    (state : List TypeGraph.Event × Builder) (field : Field) :
    Requests scope state.2 (gatherAttachedEvent scope access declaring state field).2 := by
  unfold gatherAttachedEvent
  dsimp only
  split
  · exact .refl
  split
  · exact .refl
  · exact resolve_requests scope _ state.2

theorem gatherArgument_requests (scope : Scope) (state : ArgumentKinds × Builder)
    (constructor : Method) :
    Requests scope state.2 (gatherArgument scope state constructor).2 := by
  unfold gatherArgument
  split
  · split
    · exact .refl
    split
    · exact .refl
    · exact resolve_requests scope _ state.2
  · exact .refl

/-- The properties and then the events of a type are gathered behind its number; what is gathered
after them makes requests alone. -/
theorem gatherType_spec (scope : Scope) (state : Gathered × Builder) (type : SessionType) :
    let met := state.2.ensure type
    let properties := type.decl.properties.foldl
      (gatherProperty scope (scope.accessOf type.library) met.1) (state.1.properties, met.2)
    let events := type.decl.events.foldl
      (gatherEvent scope (scope.accessOf type.library) met.1) (state.1.events, properties.2)
    (gatherType scope state type).1.properties = properties.1 ∧
      (gatherType scope state type).1.events = events.1 ∧
      Requests scope events.2 (gatherType scope state type).2 := by
  intro met properties events
  refine ⟨rfl, rfl, ?_⟩
  have hparts := foldl_requests
    (fun state declared (_ : declared ∈ type.decl.attributes) =>
      gatherTemplatePart_requests scope state declared)
    state.1.templateParts (.refl : Requests scope events.2 events.2)
  unfold gatherType
  dsimp only
  cases state.1.items with
  | some items => exact hparts
  | none => exact hparts.trans (resolveItems_requests scope _ _)

theorem gatherType_requests (state : Gathered × Builder) {type : SessionType}
    (h : type ∈ scope.session.types) :
    Requests scope state.2 (gatherType scope state type).2 := by
  have hproperties := foldl_requests
    (fun state' property (_ : property ∈ type.decl.properties) =>
      gatherProperty_requests scope (scope.accessOf type.library) (state.2.ensure type).1 state'
        property)
    state.1.properties (ensure_requests state.2 h)
  have hevents := foldl_requests
    (fun state' event (_ : event ∈ type.decl.events) =>
      gatherEvent_requests scope (scope.accessOf type.library) (state.2.ensure type).1 state' event)
    state.1.events hproperties
  exact hevents.trans (gatherType_spec scope state type).2.2

end XamlAssist.Conversion
