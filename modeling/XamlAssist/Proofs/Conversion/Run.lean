import XamlAssist.Conversion.Convert
import XamlAssist.Proofs.Conversion.BaseChain
import XamlAssist.Proofs.Conversion.Growth

/-!
# The steps of a conversion

A conversion makes requests, sets the members of types that were met, and annotates the graph. Main
statement: `run_convert`, every conversion is a run of these steps.
-/

namespace XamlAssist.Conversion

open TypeGraph Library

/-! ### Annotations -/

/-- The changes of a graph that touch no type but for its hints and the types of its properties. -/
inductive Annotate : TypeGraph → TypeGraph → Prop
  | hints {graph : TypeGraph} (hints : List String) (id : TypeId) :
      Annotate graph (addHints hints id graph)
  | retype {graph : TypeGraph} : Annotate graph (retypeSources graph)
  | resources {graph : TypeGraph} (library : String) (index : Resource.Index) :
      Annotate graph (graph.setResources library index)
  | register {graph : TypeGraph} (space name : String) (id : TypeId) :
      Annotate graph (graph.register space name id)

abbrev Annotates : TypeGraph → TypeGraph → Prop := Relation.ReflTransGen Annotate

/-- The second builder differs from the first by annotations of its graph only. -/
def AnnotatesGraph (builder next : Builder) : Prop :=
  ∃ graph, Annotates builder.graph graph ∧ next = { builder with graph }

namespace AnnotatesGraph

variable {builder middle next : Builder}

theorem annotates (h : AnnotatesGraph builder next) : Annotates builder.graph next.graph := by
  obtain ⟨graph, hgraph, rfl⟩ := h
  exact hgraph

theorem refl (builder : Builder) : AnnotatesGraph builder builder := ⟨_, .refl, rfl⟩

theorem trans (h : AnnotatesGraph builder middle) (hnext : AnnotatesGraph middle next) :
    AnnotatesGraph builder next := by
  obtain ⟨graph, hgraph, rfl⟩ := h
  obtain ⟨final, hfinal, rfl⟩ := hnext
  exact ⟨final, hgraph.trans hfinal, rfl⟩

theorem mapGraph (builder : Builder) {change : TypeGraph → TypeGraph}
    (h : Annotates builder.graph (change builder.graph)) :
    AnnotatesGraph builder (builder.mapGraph change) :=
  ⟨_, h, rfl⟩

theorem foldl {α : Type} {step : Builder → α → Builder}
    (hstep : ∀ builder item, AnnotatesGraph builder (step builder item)) (items : List α)
    (builder : Builder) : AnnotatesGraph builder (items.foldl step builder) := by
  induction items generalizing builder with
  | nil => exact .refl builder
  | cons item items ih => exact (hstep builder item).trans (ih (step builder item))

end AnnotatesGraph

theorem register_annotates (builder : Builder) (space name : String) (id : TypeId) :
    AnnotatesGraph builder (builder.register space name id) :=
  .mapGraph builder (.single (.register space name id))

private theorem registerShortName_annotates (type : SessionType) (id : TypeId)
    (builder : Builder) : AnnotatesGraph builder (registerShortName type id builder) := by
  unfold registerShortName
  split
  · exact .refl builder
  · refine .foldl (fun builder space => ?_) _ builder
    unfold registerIfFree
    split
    · exact .refl builder
    · exact register_annotates builder _ _ _

private theorem addHints_annotates (hints : List String) (id : TypeId) (builder : Builder) :
    AnnotatesGraph builder (builder.addHints hints id) :=
  .mapGraph builder (.single (.hints hints id))

private theorem addHintsIfAny_annotates (hints : List String) (id : Option TypeId)
    (builder : Builder) : AnnotatesGraph builder (addHintsIfAny hints id builder) := by
  cases id with
  | none => exact .refl builder
  | some id => exact addHints_annotates hints id builder

theorem addEmbedded_annotates (session : Session) (graph : TypeGraph) :
    Annotates graph (addEmbedded session graph) := by
  unfold addEmbedded
  induction session.libraries generalizing graph with
  | nil => exact .refl
  | cons library libraries ih =>
      refine .trans ?_ (ih (addLibrary session graph library))
      unfold addLibrary
      split
      · exact .single (.resources _ _)
      · exact .refl

private theorem addAddressHints_annotates (scope : Scope) (builder : Builder) :
    AnnotatesGraph builder (addAddressHints scope builder) :=
  .trans (.trans (.trans (.trans (.trans (addHints_annotates _ _ _) (addHints_annotates _ _ _))
    (addHints_annotates _ _ _)) (addHints_annotates _ _ _)) (addHintsIfAny_annotates _ _ _))
    (addHints_annotates _ _ _)

private theorem addStaticHints_annotates (scope : Scope) (holder : String) (id : Option TypeId)
    (builder : Builder) : AnnotatesGraph builder (addStaticHints scope holder id builder) := by
  unfold addStaticHints
  split
  · exact addHintsIfAny_annotates _ _ _
  · exact .refl builder

theorem registerAlias_annotates (builder : Builder) (names : String × String) :
    AnnotatesGraph builder (registerAlias builder names) := by
  unfold registerAlias
  split
  · exact .refl builder
  · exact .foldl (fun _ _ => register_annotates _ _ _ _) _ builder

theorem complete_annotates (scope : Scope) (offered : List TypeId) (builder : Builder) :
    AnnotatesGraph builder (complete scope offered builder) := by
  unfold complete addLateHints
  dsimp only [Builder.lookAt_unchecked]
  refine .trans ?_ (.foldl registerAlias_annotates _ _)
  refine .trans (.trans ?_ (addHints_annotates _ _ _)) (addHints_annotates _ _ _)
  refine .trans (.trans ?_ (addStaticHints_annotates scope _ _ _))
    (addStaticHints_annotates scope _ _ _)
  refine .trans ?_ (.mapGraph _ (.single .retype))
  exact .trans (.mapGraph builder (addEmbedded_annotates scope.session builder.graph))
    (addAddressHints_annotates scope _)

theorem Annotates.map_eq {β : Type} {view : Node → β}
    (hhints : ∀ node hints, view { node with hints } = view node)
    (htypes : ∀ node declaring,
      view { node with properties := node.properties.map (retypeSource declaring) } = view node)
    {graph next : TypeGraph} (h : Annotates graph next) :
    next.types.map view = graph.types.map view := by
  induction h with
  | refl => rfl
  | @tail middle last _ hlast ih =>
      rw [← ih]
      cases hlast with
      | hints hints id => exact map_modify_eq middle id fun node => hhints node _
      | retype =>
          rw [retypeSources, List.map_map]
          exact List.map_congr_left fun node _ => htypes node _
      | resources library index => rfl
      | register space name id => rfl

theorem Annotates.byFullName_eq {graph next : TypeGraph} (h : Annotates graph next) :
    next.byFullName = graph.byFullName := by
  induction h with
  | refl => rfl
  | tail _ hlast ih =>
      rw [← ih]
      cases hlast <;> rfl

/-! ### Steps -/

/-- The steps of a conversion. -/
inductive Step (scope : Scope) : Builder → Builder → Prop
  | request {builder next : Builder} : Request scope builder next → Step scope builder next
  | members {builder : Builder} {type : SessionType} {id : TypeId} (gathered : Gathered)
      (argument : ConstructorArgument) :
      type ∈ scope.session.types → builder.ids.lookup type.handle = some id →
        Step scope builder (builder.mapGraph (·.modify id (setMembers gathered argument)))
  | annotate {builder : Builder} {graph : TypeGraph} :
      Annotate builder.graph graph → Step scope builder { builder with graph }

/-- The second state is reached from the first by steps of a conversion. -/
abbrev Run (scope : Scope) : Builder → Builder → Prop := Relation.ReflTransGen (Step scope)

variable {scope : Scope} {builder next : Builder}

theorem Requests.run (h : Requests scope builder next) : Run scope builder next :=
  Relation.ReflTransGen.mono (fun _ _ => Step.request) _ _ h

theorem Annotates.run {graph : TypeGraph} (h : Annotates builder.graph graph) :
    Run scope builder { builder with graph } := by
  induction h with
  | refl => exact .refl
  | tail _ hlast ih => exact ih.tail (.annotate hlast)

theorem AnnotatesGraph.run (h : AnnotatesGraph builder next) : Run scope builder next := by
  obtain ⟨graph, hgraph, rfl⟩ := h
  exact hgraph.run

theorem harvest_shape (builder : Builder) (id : TypeId) {type : SessionType}
    (htype : type ∈ scope.session.types) :
    let chained := (scope.baseChain type).foldl (gatherType scope) ({}, builder)
    let access := scope.accessOf type.library
    let properties := type.decl.fields.foldl (gatherAttachedProperty scope access type.decl id)
      (chained.1.properties, chained.2)
    let events := type.decl.fields.foldl (gatherAttachedEvent scope access id)
      (chained.1.events, properties.2)
    ∃ grown gathered argument,
      Requests scope builder chained.2 ∧ Requests scope chained.2 grown ∧
      gathered.properties = properties.1 ∧ gathered.events = events.1 ∧
      harvest scope builder (id, type) =
        let next := grown.mapGraph (·.modify id (setMembers gathered argument))
        if chained.1.isMarkupExtension then registerShortName type id next else next := by
  intro chained access properties events
  have hchain : ∀ other ∈ scope.baseChain type, other ∈ scope.session.types :=
    fun _ => mem_types_of_mem_chainFrom scope htype
  have hchained : Requests scope builder chained.2 :=
    foldl_requests (fun state other h => gatherType_requests state (hchain other h)) {} .refl
  have hproperties : Requests scope chained.2 properties.2 :=
    foldl_requests (fun state field _ => gatherAttachedProperty_requests scope _ _ _ state field)
      chained.1.properties .refl
  have hevents : Requests scope chained.2 events.2 :=
    foldl_requests (fun state field _ => gatherAttachedEvent_requests scope _ _ state field)
      chained.1.events hproperties
  have hkinds : Requests scope chained.2
      (type.decl.constructors.foldl (gatherArgument scope) ({}, events.2)).2 :=
    foldl_requests (fun state constructor _ => gatherArgument_requests scope state constructor)
      {} hevents
  exact ⟨_, { chained.1 with properties := properties.1, events := events.1 },
    (type.decl.constructors.foldl (gatherArgument scope) ({}, events.2)).1.argument,
    hchained, hkinds, rfl, rfl, rfl⟩

/-- The members of a type are gathered by requests, set at its number, and then the graph is
annotated. -/
theorem harvest_spec (builder : Builder) (id : TypeId) {type : SessionType}
    (htype : type ∈ scope.session.types) :
    let chained := (scope.baseChain type).foldl (gatherType scope) ({}, builder)
    let access := scope.accessOf type.library
    let properties := type.decl.fields.foldl (gatherAttachedProperty scope access type.decl id)
      (chained.1.properties, chained.2)
    let events := type.decl.fields.foldl (gatherAttachedEvent scope access id)
      (chained.1.events, properties.2)
    ∃ grown gathered argument graph,
      Requests scope builder chained.2 ∧ Requests scope chained.2 grown ∧
      gathered.properties = properties.1 ∧ gathered.events = events.1 ∧
      Annotates (grown.graph.modify id (setMembers gathered argument)) graph ∧
      harvest scope builder (id, type) = { grown with graph } := by
  intro chained access properties events
  obtain ⟨grown, gathered, argument, hchained, hgrown, hproperties, hevents, heq⟩ :=
    harvest_shape builder id htype
  have hannotates : AnnotatesGraph (grown.mapGraph (·.modify id (setMembers gathered argument)))
      (harvest scope builder (id, type)) := by
    rw [heq]
    dsimp only
    split
    · exact registerShortName_annotates type id _
    · exact .refl _
  obtain ⟨graph, hgraph, hnext⟩ := hannotates
  exact ⟨grown, gathered, argument, graph, hchained, hgrown, hproperties, hevents, hgraph, hnext⟩

theorem harvest_run {id : TypeId} {type : SessionType} (htype : type ∈ scope.session.types)
    (hid : builder.ids.lookup type.handle = some id) :
    Run scope builder (harvest scope builder (id, type)) := by
  obtain ⟨grown, gathered, argument, graph, hchained, hgrown, -, -, hgraph, heq⟩ :=
    harvest_spec builder id htype
  have hrequests : Requests scope builder grown := hchained.trans hgrown
  have hmembers := hrequests.run.tail
    (.members gathered argument htype (hrequests.grows.lookup hid))
  rw [heq]
  exact hmembers.trans hgraph.run

/-- A step makes a request or keeps what tells the types apart and what is found. -/
theorem Step.labels (h : Step scope builder next) :
    Request scope builder next ∨ (next.graph.labels = builder.graph.labels ∧
      next.ids = builder.ids ∧ next.instances = builder.instances ∧
      next.graph.byFullName = builder.graph.byFullName) := by
  cases h with
  | request h => exact .inl h
  | @members _ id gathered argument _ _ =>
      exact .inr ⟨labels_modify_same builder.graph id fun _ => rfl, rfl, rfl, rfl⟩
  | annotate h =>
      exact .inr ⟨Annotates.map_eq (fun _ _ => rfl) (fun _ _ => rfl) (.single h), rfl, rfl,
        Annotates.byFullName_eq (.single h)⟩

theorem Step.lookup (h : Step scope builder next) {handle : Handle} {id : TypeId}
    (hid : builder.ids.lookup handle = some id) : next.ids.lookup handle = some id := by
  rcases h.labels with hrequest | ⟨-, hids, -⟩
  · exact Grows.lookup (Requests.grows (.single hrequest)) hid
  · rw [hids, hid]

theorem Run.lookup (h : Run scope builder next) {handle : Handle} {id : TypeId}
    (hid : builder.ids.lookup handle = some id) : next.ids.lookup handle = some id := by
  induction h with
  | refl => exact hid
  | tail _ hlast ih => exact hlast.lookup ih

/-! ### Registering -/

/-- The given types of the session are noted with the numbers under which they were met. -/
structure Registered (scope : Scope) (types : List SessionType)
    (state : List (TypeId × SessionType) × Builder) : Prop where
  run : Run scope {} state.2
  types_eq : state.1.map Prod.snd = types
  mem_types : ∀ pair ∈ state.1, pair.2 ∈ scope.session.types
  lookup : ∀ pair ∈ state.1, state.2.ids.lookup pair.2.handle = some pair.1

theorem graph_foldl_register (name : String) (id : TypeId) (spaces : List String)
    (builder : Builder) :
    (spaces.foldl (fun builder space => builder.register space name id) builder).graph =
      spaces.foldl (fun graph space => graph.register space name id) builder.graph := by
  induction spaces generalizing builder with
  | nil => rfl
  | cons space spaces ih => exact ih (builder.register space name id)

theorem graph_registerType (library : Library) (state : List (TypeId × SessionType) × Builder)
    (type : SessionType) :
    (registerType library state type).2.graph =
      (spaces library type).foldl
        (fun graph space => graph.register space type.decl.name (state.2.ensure type).1)
        (state.2.ensure type).2.graph :=
  graph_foldl_register _ _ _ _

theorem registerType_annotates (library : Library)
    (state : List (TypeId × SessionType) × Builder) (type : SessionType) :
    AnnotatesGraph (state.2.ensure type).2 (registerType library state type).2 :=
  .foldl (fun _ _ => register_annotates _ _ _ _) _ _

private theorem AnnotatesGraph.lookup (h : AnnotatesGraph builder next) {handle : Handle}
    {id : TypeId} (hid : builder.ids.lookup handle = some id) :
    next.ids.lookup handle = some id := by
  obtain ⟨graph, -, rfl⟩ := h
  exact hid

theorem Registered.registerType {types : List SessionType}
    {state : List (TypeId × SessionType) × Builder} (h : Registered scope types state)
    {type : SessionType} (htype : type ∈ scope.session.types) (library : Library) :
    Registered scope (types ++ [type]) (registerType library state type) := by
  have hensure := ensure_requests state.2 htype
  have hspaces := registerType_annotates library state type
  constructor
  · exact (h.run.trans hensure.run).trans hspaces.run
  · show (state.1 ++ [((state.2.ensure type).1, type)]).map Prod.snd = types ++ [type]
    rw [List.map_append, h.types_eq, List.map_singleton]
  · intro pair hpair
    rcases List.mem_append.mp hpair with hpair | hpair
    · exact h.mem_types pair hpair
    · rw [List.mem_singleton.mp hpair]
      exact htype
  · intro pair hpair
    rcases List.mem_append.mp hpair with hpair | hpair
    · exact hspaces.lookup (hensure.grows.lookup (h.lookup pair hpair))
    · rw [List.mem_singleton.mp hpair]
      exact hspaces.lookup (lookup_ensure state.2 type)

theorem Registered.foldl {types : List SessionType}
    {state : List (TypeId × SessionType) × Builder} (h : Registered scope types state)
    (rest : List SessionType) (hrest : ∀ type ∈ rest, type ∈ scope.session.types)
    (library : Library) :
    Registered scope (types ++ rest) (rest.foldl (Conversion.registerType library) state) := by
  induction rest generalizing types state with
  | nil =>
      rw [List.append_nil]
      exact h
  | cons type rest ih =>
      have hnext := h.registerType (hrest type List.mem_cons_self) library
      have hfinal := ih hnext fun other hmem => hrest other (List.mem_cons_of_mem type hmem)
      rw [List.append_assoc, List.singleton_append] at hfinal
      exact hfinal

theorem mem_types_of_mem_offered {library : SessionLibrary}
    (hlibrary : library ∈ scope.session.libraries) {type : SessionType}
    (h : type ∈ scope.offered library) : type ∈ scope.session.types :=
  List.mem_flatMap.mpr ⟨library, hlibrary, (List.mem_filter.mp h).1⟩

private theorem Registered.foldl_libraries {types : List SessionType}
    {state : List (TypeId × SessionType) × Builder} (h : Registered scope types state)
    (rest : List SessionLibrary) (hrest : ∀ library ∈ rest, library ∈ scope.session.libraries) :
    Registered scope (types ++ rest.flatMap scope.offered)
      (rest.foldl (registerLibrary scope) state) := by
  induction rest generalizing types state with
  | nil =>
      rw [List.flatMap_nil, List.append_nil]
      exact h
  | cons library rest ih =>
      have hoffered : ∀ type ∈ scope.offered library, type ∈ scope.session.types :=
        fun _ => mem_types_of_mem_offered (hrest library List.mem_cons_self)
      have hnext := h.foldl (scope.offered library) hoffered library.library
      have hfinal := ih hnext fun other hmem => hrest other (List.mem_cons_of_mem library hmem)
      rw [List.append_assoc] at hfinal
      exact hfinal

theorem registered_register (scope : Scope) :
    Registered scope scope.allOffered (register scope) := by
  have hstart : Registered scope [] ([], {}) :=
    ⟨.refl, rfl, fun _ h => absurd h (by simp), fun _ h => absurd h (by simp)⟩
  exact hstart.foldl_libraries scope.session.libraries fun _ h => h

/-! ### The whole conversion -/

theorem foldl_harvest_run {offered : List (TypeId × SessionType)}
    (htypes : ∀ pair ∈ offered, pair.2 ∈ scope.session.types)
    (hlookup : ∀ pair ∈ offered, builder.ids.lookup pair.2.handle = some pair.1) :
    Run scope builder (offered.foldl (harvest scope) builder) := by
  induction offered generalizing builder with
  | nil => exact .refl
  | cons pair offered ih =>
      have hfirst := harvest_run (htypes pair List.mem_cons_self) (hlookup pair List.mem_cons_self)
      refine hfirst.trans (ih (fun other h => htypes other (List.mem_cons_of_mem pair h)) ?_)
      exact fun other h => Run.lookup hfirst (hlookup other (List.mem_cons_of_mem pair h))

/-- Every conversion is a run from the seed. -/
theorem run_convert (settings : Settings) (session : Session) :
    ∃ final, Run ⟨settings, session⟩ {} final ∧ final.graph = convert settings session := by
  have hregistered := registered_register ⟨settings, session⟩
  have hharvest := foldl_harvest_run hregistered.mem_types hregistered.lookup
  have hcomplete := complete_annotates ⟨settings, session⟩
    ((register ⟨settings, session⟩).1.map Prod.fst)
    ((register ⟨settings, session⟩).1.foldl (harvest ⟨settings, session⟩)
      (register ⟨settings, session⟩).2)
  exact ⟨_, (hregistered.run.trans hharvest).trans hcomplete.run, rfl⟩

end XamlAssist.Conversion
