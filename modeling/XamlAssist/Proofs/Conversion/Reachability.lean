import XamlAssist.Proofs.Conversion.Identity
import XamlAssist.Proofs.Conversion.Safety
import XamlAssist.Proofs.TypeGraph.Registration

/-!
# Only offered types are reachable

Markup reaches the directives and extensions of the seed and the types that a library offers to the
target. The types that references bring into the graph come behind all offered ones, so no short
name and no alias of a binding leads to one of them. Main statement: `offered_of_lookup?_convert`.
-/

namespace XamlAssist.Conversion

open TypeGraph Library

/-- Whether a number is that of a directive or an extension of the seed. -/
def isDirectiveId (id : TypeId) : Bool :=
  (TypeGraph.seed.get? id).any fun node => node.isDirective || node.isMarkupExtension

/-- The types that may be reachable when the given ones are offered. -/
def MayReach (offered : List (TypeId × SessionType)) (id : TypeId) : Prop :=
  isDirectiveId id = true ∨ id ∈ offered.map Prod.fst

theorem exists_of_isDirectiveId {id : TypeId} (h : isDirectiveId id = true) :
    ∃ node, TypeGraph.seed.get? id = some node ∧
      (node.isDirective = true ∨ node.isMarkupExtension = true) := by
  unfold isDirectiveId at h
  cases hnode : TypeGraph.seed.get? id with
  | none => simp [hnode] at h
  | some node => exact ⟨node, rfl, by simpa [hnode] using h⟩

theorem reaches_seed : Reaches (MayReach []) TypeGraph.seed where
  lt := by
    intro id hid
    rcases hid with hid | hid
    · obtain ⟨node, hnode, -⟩ := exists_of_isDirectiveId hid
      exact lt_of_get? hnode
    · exact absurd hid List.not_mem_nil
  lookup? := by
    intro space name id hid
    have hall : TypeGraph.seed.namespaces.entries.all fun space =>
        space.2.values.all isDirectiveId := by decide +kernel
    obtain ⟨names, hnames, hname⟩ := Option.bind_eq_some_iff.mp hid
    have hspace := List.all_eq_true.mp hall _ (OrderedMap.mem_entries_of_get? hnames)
    have hmem : id ∈ names.values :=
      List.mem_map.mpr ⟨(name, id), OrderedMap.mem_entries_of_get? hname, rfl⟩
    exact .inl (List.all_eq_true.mp hspace id hmem)
  named := by
    intro fullName hspaces
    have hall : TypeGraph.seed.reachable.entries.all fun entry =>
        (List.range TypeGraph.seed.types.length).any fun id =>
          isDirectiveId id && TypeGraph.seed.fullNameOf id = entry.1 := by decide +kernel
    cases hentry : TypeGraph.seed.reachable.get? fullName with
    | none => exact absurd (by rw [namespacesOf, hentry]; rfl) hspaces
    | some spaces =>
        have hany := List.all_eq_true.mp hall _ (OrderedMap.mem_entries_of_get? hentry)
        obtain ⟨id, -, hid⟩ := List.any_eq_true.mp hany
        rw [Bool.and_eq_true, decide_eq_true_iff] at hid
        exact ⟨id, .inl hid.1, hid.2⟩

variable {scope : Scope} {builder next : Builder} {allowed : TypeId → Prop}

/-! ### Growing -/

private theorem ensure_spaces (builder : Builder) (type : SessionType) :
    (builder.ensure type).2.graph.namespaces = builder.graph.namespaces ∧
      (builder.ensure type).2.graph.reachable = builder.graph.reachable := by
  rcases ensure_cases builder type with ⟨id, -, heq⟩ | ⟨-, id, label, -, -, -, heq⟩ |
    ⟨-, -, heq⟩
  · rw [heq]
    exact ⟨rfl, rfl⟩
  · rw [heq]
    exact ⟨rfl, rfl⟩
  · rw [heq]
    exact ⟨rfl, rfl⟩

private theorem ensure_reaches (h : Reaches allowed builder.graph)
    (hindexed : builder.graph.Indexed)
    (type : SessionType) : Reaches allowed (builder.ensure type).2.graph := by
  obtain ⟨hnamespaces, hreachable⟩ := ensure_spaces builder type
  obtain ⟨new, hnew⟩ := (ensure_continues hindexed type).names
  exact h.append hnamespaces hreachable hnew

private theorem Grow.reaches (hgrow : Grow scope builder next) (hindexed : builder.graph.Indexed)
    (h : Reaches allowed builder.graph) : Reaches allowed next.graph := by
  cases hgrow with
  | remember entry => exact h
  | @add node _ => exact h.append rfl rfl (names_add builder.graph node)
  | @ensure type _ => exact ensure_reaches h hindexed type

private theorem Grows.reaches (hgrows : Grows scope builder next) (hindexed : builder.graph.Indexed)
    (h : Reaches allowed builder.graph) : Reaches allowed next.graph := by
  induction hgrows with
  | refl => exact h
  | tail hfirst hlast ih => exact hlast.reaches (Grows.continues hfirst hindexed).indexed ih

/-! ### Registering -/

/-- While the offered types are registered, the graph has no types but them and those of the seed,
and all are found by their names. -/
structure Introduced (state : List (TypeId × SessionType) × Builder) : Prop where
  inRange : InRange (·.map Prod.fst) state
  indexed : state.2.graph.Indexed
  reaches : Reaches (MayReach state.1) state.2.graph
  listed : ∀ name ∈ state.2.graph.names, name.1 = true
  known : ∀ id < state.2.count, id < TypeGraph.seed.types.length ∨ id ∈ state.1.map Prod.fst

theorem introduced_seed : Introduced ([], {}) where
  inRange := ⟨bounded_seed, by simp⟩
  indexed := indexed_seed
  reaches := reaches_seed
  listed := by
    have hall : TypeGraph.seed.names.all Prod.fst := by decide +kernel
    exact List.all_eq_true.mp hall
  known := fun _ hid => .inl hid

theorem MayReach.append {offered : List (TypeId × SessionType)} {id : TypeId}
    (h : MayReach offered id) (more : List (TypeId × SessionType)) :
    MayReach (offered ++ more) id :=
  h.imp_right fun hmem => by
    rw [List.map_append]
    exact List.mem_append_left _ hmem

theorem Introduced.registerType {state : List (TypeId × SessionType) × Builder}
    (h : Introduced state) (library : Library) (type : SessionType) :
    Introduced (registerType library state type) := by
  have hmet := ensure_succeeds h.inRange.bounded type
  have hid := hmet.inRange.numbers _ List.mem_cons_self
  have hself : (state.2.ensure type).1 ∈
      (state.1 ++ [((state.2.ensure type).1, type)]).map Prod.fst := by simp
  have hnames : (Conversion.registerType library state type).2.graph.names =
      (state.2.ensure type).2.graph.names := by
    rw [graph_registerType]
    exact congrArg (fun types : List Node => (types.map Node.label).map _)
      (types_foldl_register type.decl.name _ (spaces library type) _)
  have hreaches := ensure_reaches h.reaches h.indexed type
  refine ⟨(registerType_succeeds h.inRange library type).inRange, ?_, ?_, ?_, ?_⟩
  · refine (ensure_continues h.indexed type).indexed.congr ?_ hnames
    rw [graph_registerType]
    exact byFullName_foldl_register type.decl.name _ (spaces library type) _
  · rw [graph_registerType]
    refine Reaches.foldl_register (hreaches.widen (fun _ hold => hold.append _) ?_)
      (.inr hself) type.decl.name (spaces library type)
    rintro other (hother | hother)
    · exact hreaches.lt (.inl hother)
    · rw [List.map_append, List.mem_append] at hother
      rcases hother with hother | hother
      · exact hreaches.lt (.inr hother)
      · exact List.mem_singleton.mp hother ▸ hid
  · rw [hnames]
    rcases names_ensure_cases h.indexed type with hsame | ⟨-, hnew⟩
    · rw [hsame]
      exact h.listed
    · rw [hnew, List.forall_mem_append]
      exact ⟨h.listed, by simp⟩
  · intro other hother
    rw [Builder.count, ← names_length, hnames] at hother
    have hold (hlt : other < state.2.count) : other < TypeGraph.seed.types.length ∨
        other ∈ (state.1 ++ [((state.2.ensure type).1, type)]).map Prod.fst := by
      rw [List.map_append, List.mem_append]
      exact (h.known other hlt).imp_right .inl
    rcases names_ensure_cases h.indexed type with hsame | ⟨hplace, hnew⟩
    · rw [hsame, names_length] at hother
      exact hold hother
    · rw [hnew, List.length_append, names_length] at hother
      rcases Nat.lt_or_eq_of_le (Nat.le_of_lt_succ hother) with hother | rfl
      · exact hold hother
      · exact .inr (hplace ▸ hself)

theorem introduced_register (scope : Scope) : Introduced (register scope) := by
  refine List.foldlRecOn _ _ introduced_seed fun state hstate library _ => ?_
  exact List.foldlRecOn _ _ hstate fun state hstate type _ =>
    hstate.registerType library.library type

/-! ### Gathering members -/

private theorem registerShortName_reaches (h : Reaches allowed builder.graph) {id : TypeId}
    (hid : allowed id) (type : SessionType) :
    Reaches allowed (registerShortName type id builder).graph := by
  unfold registerShortName
  split
  · exact h
  · refine List.foldlRecOn (motive := fun current : Builder => Reaches allowed current.graph) _ _ h
      fun current hcurrent space _ => ?_
    unfold registerIfFree
    split
    · exact hcurrent
    · exact hcurrent.register hid space _

private theorem harvest_reaches (h : Reaches allowed builder.graph)
    (hindexed : builder.graph.Indexed)
    {id : TypeId} (hid : allowed id) {type : SessionType} (htype : type ∈ scope.session.types) :
    Reaches allowed (harvest scope builder (id, type)).graph := by
  obtain ⟨grown, gathered, argument, hchained, hgrown, -, -, heq⟩ :=
    harvest_shape builder id htype
  have hgrows : Reaches allowed grown.graph :=
    (Requests.grows (hchained.trans hgrown)).reaches hindexed h
  have hmembers :
      Reaches allowed (grown.mapGraph (·.modify id (setMembers gathered argument))).graph :=
    hgrows.congr rfl rfl (labels_modify_same grown.graph id fun _ => rfl)
  rw [heq]
  dsimp only
  split
  · exact registerShortName_reaches hmembers hid type
  · exact hmembers

/-! ### Hints -/

/-- A change that touches neither the namespaces nor what tells the types apart. -/
structure KeepsSpaces (graph next : TypeGraph) : Prop where
  namespaces : next.namespaces = graph.namespaces
  reachable : next.reachable = graph.reachable
  labels : next.labels = graph.labels
  byFullName : next.byFullName = graph.byFullName

theorem KeepsSpaces.trans {graph middle next : TypeGraph} (h : KeepsSpaces graph middle)
    (hnext : KeepsSpaces middle next) : KeepsSpaces graph next :=
  ⟨hnext.namespaces.trans h.namespaces, hnext.reachable.trans h.reachable,
    hnext.labels.trans h.labels, hnext.byFullName.trans h.byFullName⟩

theorem KeepsSpaces.continues {graph next : TypeGraph} (h : KeepsSpaces graph next)
    (hindexed : graph.Indexed) : Continues graph next :=
  hindexed.continues h.byFullName (by rw [names, names, h.labels])

private theorem addHints_keepsSpaces (hints : List String) (id : TypeId) (graph : TypeGraph) :
    KeepsSpaces graph (addHints hints id graph) :=
  ⟨rfl, rfl, labels_modify_same graph id fun _ => rfl, rfl⟩

private theorem addHintsIfAny_keepsSpaces (hints : List String) (id : Option TypeId)
    (builder : Builder) : KeepsSpaces builder.graph (addHintsIfAny hints id builder).graph := by
  cases id with
  | none => exact ⟨rfl, rfl, rfl, rfl⟩
  | some id => exact addHints_keepsSpaces hints id builder.graph

private theorem addAddressHints_keepsSpaces (scope : Scope) (builder : Builder) :
    KeepsSpaces builder.graph (addAddressHints scope builder).graph := by
  refine .trans ?_ (addHints_keepsSpaces _ _ _)
  refine .trans ?_ (addHintsIfAny_keepsSpaces _ _ _)
  refine .trans ?_ (addHints_keepsSpaces _ _ _)
  refine .trans ?_ (addHints_keepsSpaces _ _ _)
  exact (addHints_keepsSpaces _ _ builder.graph).trans (addHints_keepsSpaces _ _ _)

private theorem addStaticHints_keepsSpaces (scope : Scope) (holder : String) (id : Option TypeId)
    (builder : Builder) :
    KeepsSpaces builder.graph (addStaticHints scope holder id builder).graph := by
  unfold addStaticHints
  split
  · exact addHintsIfAny_keepsSpaces _ _ _
  · exact ⟨rfl, rfl, rfl, rfl⟩

private theorem addEmbedded_keepsSpaces (session : Session) (graph : TypeGraph) :
    KeepsSpaces graph (addEmbedded session graph) := by
  obtain ⟨htypes, hnamespaces, hreachable⟩ := addEmbedded_frame session graph
  exact ⟨hnamespaces, hreachable, congrArg (List.map Node.label) htypes,
    (addEmbedded_annotates session graph).byFullName_eq⟩

private theorem retypeSources_keepsSpaces (graph : TypeGraph) :
    KeepsSpaces graph (retypeSources graph) :=
  ⟨rfl, rfl, Annotates.map_eq (fun _ _ => rfl) (fun _ _ => rfl) (.single .retype), rfl⟩

/-- The aliases of the bindings come last, after hints alone. -/
theorem complete_shape (scope : Scope) (offered : List TypeId) (builder : Builder) :
    ∃ hinted : Builder, KeepsSpaces builder.graph hinted.graph ∧
      complete scope offered builder = Known.bindingAliases.foldl registerAlias hinted := by
  refine ⟨_, ?_, rfl⟩
  refine .trans ?_ (addHints_keepsSpaces _ _ _)
  refine .trans ?_ (addHints_keepsSpaces _ _ _)
  refine .trans ?_ (addStaticHints_keepsSpaces scope _ _ _)
  refine .trans ?_ (addStaticHints_keepsSpaces scope _ _ _)
  refine .trans ?_ (retypeSources_keepsSpaces _)
  exact (addEmbedded_keepsSpaces scope.session builder.graph).trans
    (addAddressHints_keepsSpaces scope (builder.mapGraph (addEmbedded scope.session)))

/-! ### Aliases -/

/-- A full name outside the seed that has a namespace stands for an offered type, even if types of
the same name came later. -/
theorem Introduced.mayReach_of_find? {state : List (TypeId × SessionType) × Builder}
    (h : Introduced state) (hseed : Continues TypeGraph.seed state.2.graph) {graph : TypeGraph}
    (hlater : Continues state.2.graph graph)
    (hreaches : Reaches (MayReach state.1) graph) {fullName : String}
    (hplain : fullName ∉ seedNames) (hspaces : graph.namespacesOf fullName ≠ []) {id : TypeId}
    (hid : graph.find? fullName = some id) : MayReach state.1 id := by
  obtain ⟨other, hother, hname⟩ := hreaches.named hspaces
  have hlt := h.reaches.lt hother
  rw [hlater.fullNameOf_eq hlt] at hname
  have hnode : state.2.graph.get? other = some state.2.graph.types[other] :=
    List.getElem?_eq_getElem hlt
  have hlabel : state.2.graph.labels[other]? = some state.2.graph.types[other].label := by
    rw [labels_getElem?, hnode, Option.map_some]
  have hlisted : state.2.graph.types[other].label.isListed = true :=
    h.listed _ (List.mem_map_of_mem (List.mem_of_getElem? hlabel))
  have hfound := h.indexed.find?_ne_none hlabel hlisted
  rw [show state.2.graph.types[other].label.fullName = fullName from
    (fullNameOf_of_get? hnode).symm.trans hname] at hfound
  obtain ⟨found, hfound⟩ := Option.ne_none_iff_exists'.mp hfound
  obtain rfl := Option.some.inj ((hlater.find?_some h.indexed hfound).symm.trans hid)
  obtain ⟨node, hnode, -, hfull⟩ := h.indexed.exists_node hfound
  rcases h.known found (lt_of_get? hnode) with hsmall | hmem
  · have hseeded : TypeGraph.seed.get? found = some TypeGraph.seed.types[found] :=
      List.getElem?_eq_getElem hsmall
    have hequal : TypeGraph.seed.types[found].fullName = fullName := by
      rw [← fullNameOf_of_get? hseeded, ← hseed.fullNameOf_eq hsmall,
        fullNameOf_of_get? hnode, hfull]
    exact absurd (hequal ▸ List.mem_map_of_mem (List.getElem_mem hsmall)) hplain
  · exact .inr hmem

theorem Introduced.registerAlias {state : List (TypeId × SessionType) × Builder}
    (h : Introduced state) (hseed : Continues TypeGraph.seed state.2.graph)
    (hlater : Continues state.2.graph builder.graph)
    (hreaches : Reaches (MayReach state.1) builder.graph) {names : String × String}
    (hplain : names.1 ∉ seedNames) :
    Reaches (MayReach state.1) (registerAlias builder names).graph := by
  unfold Conversion.registerAlias
  cases hfind : builder.graph.find? names.1 with
  | none => exact hreaches
  | some id =>
      dsimp only
      rw [graph_foldl_register]
      by_cases hspaces : builder.graph.namespacesOf names.1 = []
      · rw [hspaces]
        exact hreaches
      · have hid := h.mayReach_of_find? hseed hlater hreaches hplain hspaces hfind
        exact hreaches.foldl_register hid names.2 _

theorem not_mem_seedNames_of_bindingAlias :
    ∀ names ∈ Known.bindingAliases, names.1 ∉ seedNames := by
  decide +kernel

/-! ### The whole conversion -/

/-- The state in which the members of all offered types are known. -/
def harvested (settings : Settings) (session : Session) : Builder :=
  let scope : Scope := { settings, session }
  (register scope).1.foldl (harvest scope) (register scope).2

theorem convert_eq_complete (settings : Settings) (session : Session) :
    convert settings session =
      (complete ⟨settings, session⟩ ((register ⟨settings, session⟩).1.map Prod.fst)
        (harvested settings session)).graph :=
  rfl

theorem harvested_reaches (settings : Settings) (session : Session) :
    Reaches (MayReach (register ⟨settings, session⟩).1) (harvested settings session).graph := by
  have hregistered := registered_register ⟨settings, session⟩
  have hintroduced := introduced_register ⟨settings, session⟩
  refine (List.foldlRecOn
    (motive := fun builder : Builder => builder.graph.Indexed ∧
      Reaches (MayReach (register ⟨settings, session⟩).1) builder.graph)
    _ _ ⟨hintroduced.indexed, hintroduced.reaches⟩ ?_).2
  intro builder hbuilder pair hpair
  have htype := hregistered.mem_types pair hpair
  exact ⟨(harvest_continues hbuilder.1 pair.1 htype).indexed,
    harvest_reaches hbuilder.2 hbuilder.1 (.inr (List.mem_map_of_mem hpair)) htype⟩

theorem hinted_continues {settings : Settings} {session : Session} {hinted : TypeGraph}
    (h : KeepsSpaces (harvested settings session).graph hinted) :
    Continues (register ⟨settings, session⟩).2.graph hinted := by
  have hregistered := registered_register ⟨settings, session⟩
  have hrun : Run ⟨settings, session⟩ (register ⟨settings, session⟩).2
      (harvested settings session) :=
    foldl_harvest_run hregistered.mem_types hregistered.lookup
  have hharvested := hrun.continues (introduced_register ⟨settings, session⟩).indexed
  exact hharvested.trans (h.continues hharvested.indexed)

theorem convert_reaches (settings : Settings) (session : Session) :
    Reaches (MayReach (register ⟨settings, session⟩).1) (convert settings session) := by
  have hregistered := registered_register ⟨settings, session⟩
  have hintroduced := introduced_register ⟨settings, session⟩
  obtain ⟨hinted, hkeeps, heq⟩ := complete_shape ⟨settings, session⟩
    ((register ⟨settings, session⟩).1.map Prod.fst) (harvested settings session)
  have hreaches := (harvested_reaches settings session).congr hkeeps.namespaces hkeeps.reachable
    hkeeps.labels
  rw [convert_eq_complete, heq]
  refine (List.foldlRecOn
    (motive := fun builder : Builder =>
      Reaches (MayReach (register ⟨settings, session⟩).1) builder.graph ∧
        Continues (register ⟨settings, session⟩).2.graph builder.graph)
    _ _ ⟨hreaches, hinted_continues hkeeps⟩ ?_).1
  intro builder hbuilder names hmem
  have halias := hintroduced.registerAlias (Run.continues hregistered.run indexed_seed) hbuilder.2
    hbuilder.1 (not_mem_seedNames_of_bindingAlias names hmem)
  exact ⟨halias, hbuilder.2.trans
    ((registerAlias_annotates builder names).annotates.continues hbuilder.2.indexed)⟩

/-- A library has the type and offers it in markup: the target sees it, it is no interface, it is
not made by the compiler, and it is abstract only if it is static. -/
structure Offers (scope : Scope) (library : SessionLibrary) (type : SessionType) : Prop where
  mem_libraries : library ∈ scope.session.libraries
  mem_types : type ∈ library.types
  allows : (scope.accessTo library).allows type.decl.visibility = true
  isInterface : type.decl.isInterface = false
  head_name : type.decl.name.toList.head? ≠ some '<'
  isStatic : type.decl.isAbstract = true → type.decl.isStatic = true

private theorem exists_offers {type : SessionType} (h : type ∈ scope.allOffered) :
    ∃ library, Offers scope library type := by
  obtain ⟨library, hlibrary, htype⟩ := List.mem_flatMap.mp h
  obtain ⟨hmem, hselects⟩ := List.mem_filter.mp htype
  simp only [Access.selects, Bool.and_eq_true, Bool.not_eq_true', Bool.or_eq_true,
    decide_eq_true_eq] at hselects
  obtain ⟨⟨⟨hinterface, hname⟩, habstract⟩, hallows⟩ := hselects
  refine ⟨library, hlibrary, hmem, hallows, hinterface, hname, fun htrue => ?_⟩
  exact habstract.resolve_left (by simp [htrue])

/-- Whatever a name stands for in a namespace is a directive or an extension of the seed, or it was
met as a type that its library offers. -/
theorem offered_of_lookup?_convert (settings : Settings) (session : Session) {space name : String}
    {id : TypeId} (h : (convert settings session).lookup? space name = some id) :
    (∃ node, TypeGraph.seed.get? id = some node ∧
        (node.isDirective = true ∨ node.isMarkupExtension = true)) ∨
      ∃ library type, Offers ⟨settings, session⟩ library type ∧
        (harvested settings session).ids.lookup type.handle = some id := by
  have hregistered := registered_register ⟨settings, session⟩
  rcases (convert_reaches settings session).lookup? h with hdirective | hoffered
  · exact .inl (exists_of_isDirectiveId hdirective)
  · obtain ⟨pair, hpair, rfl⟩ := List.mem_map.mp hoffered
    have htype : pair.2 ∈ Scope.allOffered ⟨settings, session⟩ :=
      hregistered.types_eq ▸ List.mem_map_of_mem hpair
    obtain ⟨library, hoffers⟩ := exists_offers htype
    have hrun := foldl_harvest_run hregistered.mem_types hregistered.lookup
    exact .inr ⟨library, pair.2, hoffers, hrun.lookup (hregistered.lookup pair hpair)⟩

/-- A library with a binding for itself alone, and the target's binding of the same name that is
derived from it. -/
def bindingLibraries : List Library :=
  [{ name := "Core"
     types :=
      [{ namespaceName := "Avalonia.Markup.Xaml.MarkupExtensions"
         name := "ReflectionBindingExtension", visibility := .sameLibrary }] },
   { name := "App"
     types :=
      [{ namespaceName := "Avalonia.Markup.Xaml.MarkupExtensions"
         name := "ReflectionBindingExtension"
         baseType := some "Avalonia.Markup.Xaml.MarkupExtensions.ReflectionBindingExtension"
         methods := [{ name := "ProvideValue", parameters := [{ typeName := "System.Object" }] }] }]
   }]

theorem offered_of_lookup?_convert_binding :
    let session := Session.withTarget (some "App") bindingLibraries {}
    (convert {} session).lookup? "using:Avalonia.Markup.Xaml.MarkupExtensions" "Binding" =
        some 24 ∧
      ((∃ node, TypeGraph.seed.get? 24 = some node ∧
          (node.isDirective = true ∨ node.isMarkupExtension = true)) ∨
        ∃ library type, Offers ⟨{}, session⟩ library type ∧
          (harvested {} session).ids.lookup type.handle = some 24) := by
  have hlookup : (convert {} (Session.withTarget (some "App") bindingLibraries {})).lookup?
      "using:Avalonia.Markup.Xaml.MarkupExtensions" "Binding" = some 24 := by decide +kernel
  exact ⟨hlookup, offered_of_lookup?_convert {} _ hlookup⟩

end XamlAssist.Conversion
