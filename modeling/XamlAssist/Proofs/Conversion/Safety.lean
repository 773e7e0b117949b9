import XamlAssist.Proofs.Conversion.InRange
import XamlAssist.Proofs.Conversion.Names

/-!
# No access is out of range

The checks of a conversion succeed, and the graph of the session is closed. Main statement:
`convert_inRange`.
-/

namespace XamlAssist.Conversion

open TypeGraph Library

/-! ### Changes of the graph -/

/-- A step of a builder whose checks succeed has the result of the step, which is bounded, and no
type is lost. -/
structure Advances (builder : Builder) (checked : Builder Bool) (result : Builder) : Prop where
  eq : checked = result.passing
  bounded : result.Bounded
  count_le : builder.count ≤ result.count

variable {builder : Builder} {id : TypeId}

theorem Advances.refl (h : builder.Bounded) : Advances builder builder.passing builder :=
  ⟨rfl, h, Nat.le_refl _⟩

theorem Advances.of_le {middle result : Builder} {checked : Builder Bool}
    (h : Advances middle checked result) (hle : builder.count ≤ middle.count) :
    Advances builder checked result :=
  ⟨h.eq, h.bounded, Nat.le_trans hle h.count_le⟩

theorem Advances.foldl {α : Type} {checked : Builder Bool → α → Builder Bool}
    {step : Builder → α → Builder} (xs : List α) (h : builder.Bounded)
    (hstep : ∀ current : Builder, builder.count ≤ current.count → current.Bounded →
      ∀ x ∈ xs, Advances current (checked current.passing x) (step current x)) :
    Advances builder (xs.foldl checked builder.passing) (xs.foldl step builder) := by
  induction xs generalizing builder with
  | nil => exact .refl h
  | cons x xs ih =>
      have hfirst := hstep builder (Nat.le_refl _) h x List.mem_cons_self
      rw [List.foldl_cons, List.foldl_cons, hfirst.eq]
      refine (ih hfirst.bounded fun current hle hcurrent other hother => ?_).of_le hfirst.count_le
      exact hstep current (Nat.le_trans hfirst.count_le hle) hcurrent other
        (List.mem_cons_of_mem x hother)

private theorem mapGraph_advances (h : builder.Bounded) {change : TypeGraph → TypeGraph}
    (hclosed : (change builder.graph).Closed)
    (hle : builder.count ≤ (change builder.graph).types.length) :
    Advances builder (builder.passing.mapGraph change) (builder.mapGraph change) :=
  ⟨rfl, h.mono hclosed hle, hle⟩

private theorem register_advances (h : builder.Bounded) (hid : id < builder.count)
    (space name : String) :
    Advances builder (builder.passing.register space name id)
      (builder.register space name id) := by
  have hlook : ∀ number ∈ id :: (builder.graph.lookup? space name).toList,
      number < builder.count := by
    intro number hnumber
    rcases List.mem_cons.mp hnumber with rfl | hnumber
    · exact hid
    · exact h.closed.lookup? (Option.mem_toList.mp hnumber)
  unfold Builder.register
  rw [Builder.graph_passing, builder.lookAt_passing hlook]
  exact mapGraph_advances h (h.closed.register space name hid) (Nat.le_refl _)

private theorem registerAll_advances (h : builder.Bounded) (hid : id < builder.count)
    (name : String) (spaces : List String) :
    Advances builder
      (spaces.foldl (fun builder space => builder.register space name id) builder.passing)
      (spaces.foldl (fun builder space => builder.register space name id) builder) :=
  .foldl spaces h fun _ hle hcurrent space _ =>
    register_advances hcurrent (Nat.lt_of_lt_of_le hid hle) space name

private theorem registerShortName_advances (h : builder.Bounded) (hid : id < builder.count)
    (type : SessionType) :
    Advances builder (registerShortName type id builder.passing)
      (registerShortName type id builder) := by
  unfold registerShortName
  cases properStem? "Extension" type.decl.name with
  | none => exact .refl h
  | some short =>
      refine .foldl _ h fun current hle hcurrent space _ => ?_
      unfold registerIfFree
      rw [Builder.graph_passing]
      split
      · exact .refl hcurrent
      · exact register_advances hcurrent (Nat.lt_of_lt_of_le hid hle) space short

private theorem closed_setMembers {graph : TypeGraph} (h : graph.Closed) (id : TypeId)
    {gathered : Gathered}
    (hgathered : ∀ number ∈ gathered.numbers, number < graph.types.length)
    (argument : ConstructorArgument) :
    (graph.modify id (setMembers gathered argument)).Closed := by
  refine h.modify id fun node hnode number hnumber => ?_
  have hparts : number ∈ gathered.numbers ∨ number ∈ node.numbers := by
    simp only [Node.numbers, setMembers, Gathered.numbers, List.mem_append] at hnumber ⊢
    tauto
  exact hparts.elim (hgathered number) (hnode number)

private theorem setMembers_advances (h : builder.Bounded) (hid : id < builder.count)
    {gathered : Gathered} (hgathered : ∀ number ∈ gathered.numbers, number < builder.count)
    (argument : ConstructorArgument) (isExtension : Bool) (type : SessionType) :
    let change := setMembers gathered argument
    Advances builder
      (if isExtension then registerShortName type id (builder.passing.modify id change)
      else builder.passing.modify id change)
      (if isExtension then registerShortName type id (builder.modify id change)
      else builder.modify id change) := by
  intro change
  have hmodify : Advances builder (builder.passing.modify id change)
      (builder.modify id change) := by
    unfold Builder.modify
    rw [builder.lookAt_passing fun number hnumber => List.mem_singleton.mp hnumber ▸ hid]
    refine mapGraph_advances h (closed_setMembers h.closed id hgathered argument) ?_
    exact Nat.le_of_eq (length_types_modify builder.graph id change).symm
  cases isExtension with
  | false => exact hmodify
  | true =>
      rw [hmodify.eq]
      exact (registerShortName_advances hmodify.bounded
        (Nat.lt_of_lt_of_le hid hmodify.count_le) type).of_le hmodify.count_le

/-! ### Members -/

private theorem harvest_advances (h : builder.Bounded) (hid : id < builder.count) (scope : Scope)
    (type : SessionType) :
    Advances builder (harvest scope builder.passing (id, type))
      (harvest scope builder (id, type)) := by
  have hchain := @Succeeds.foldl _ _ Gathered.numbers (gatherType scope) (gatherType scope)
    (scope.baseChain type) ({}, builder) ⟨h, by simp [Gathered.numbers]⟩
    fun _ _ hcurrent other => gatherType_succeeds hcurrent scope other
  have hgathered := Gathered.numbers_lt_iff.mp hchain.inRange.numbers
  have hproperties := @gatherAttachedProperties_succeeds id (_, _)
    ⟨hchain.inRange.bounded, hgathered.1⟩ (Nat.lt_of_lt_of_le hid hchain.count_le) scope
    (scope.accessOf type.library) type.decl type.decl.fields
  have hle := Nat.le_trans hchain.count_le hproperties.count_le
  have hevents := @gatherAttachedEvents_succeeds id (_, _)
    ⟨hproperties.inRange.bounded,
      fun number hnumber => Nat.lt_of_lt_of_le (hgathered.2.1 number hnumber) hproperties.count_le⟩
    (Nat.lt_of_lt_of_le hid hle) scope (scope.accessOf type.library) type.decl.fields
  have hkinds := @Succeeds.foldl _ _ (fun _ => []) (gatherArgument scope) (gatherArgument scope)
    type.decl.constructors ({}, _) ⟨hevents.inRange.bounded, by simp⟩
    fun _ _ hcurrent constructor => gatherArgument_succeeds hcurrent scope constructor
  have hlast := Nat.le_trans hevents.count_le hkinds.count_le
  have hwhole := Nat.le_trans hproperties.count_le hlast
  have hchained := Gathered.numbers_lt_iff.mp (hchain.inRange.numbers_of_le hwhole)
  have hidLt := Nat.lt_of_lt_of_le hid (Nat.le_trans hchain.count_le hwhole)
  simp only [harvest, hchain.eq, hproperties.eq, hevents.eq, hkinds.eq]
  refine (setMembers_advances hkinds.inRange.bounded hidLt ?_ _ _ type).of_le
    (Nat.le_trans hchain.count_le hwhole)
  exact Gathered.numbers_lt_iff.mpr ⟨hproperties.inRange.numbers_of_le hlast,
    hevents.inRange.numbers_of_le hkinds.count_le, hchained.2.2.1, hchained.2.2.2⟩

theorem foldl_harvest_advances (h : builder.Bounded) (scope : Scope)
    (offered : List (TypeId × SessionType)) (hoffered : ∀ pair ∈ offered, pair.1 < builder.count) :
    Advances builder (offered.foldl (harvest scope) builder.passing)
      (offered.foldl (harvest scope) builder) :=
  .foldl offered h fun _ hle hcurrent pair hpair =>
    harvest_advances hcurrent (Nat.lt_of_lt_of_le (hoffered pair hpair) hle) scope pair.2

/-! ### Registration -/

theorem registerType_succeeds {state : List (TypeId × SessionType) × Builder}
    (h : InRange (·.map Prod.fst) state) (library : Library) (type : SessionType) :
    Succeeds (·.map Prod.fst) state.2 (registerType library (state.1, state.2.passing) type)
      (registerType library state type) := by
  have hmet := ensure_succeeds h.bounded type
  have hid := hmet.inRange.numbers _ List.mem_cons_self
  have hspaces := registerAll_advances hmet.inRange.bounded hid type.decl.name
    (spaces library type)
  have hle := Nat.le_trans hmet.count_le hspaces.count_le
  refine ⟨?_, ⟨hspaces.bounded, ?_⟩, hle⟩
  · simp only [registerType, hmet.eq, hspaces.eq]
  intro number hnumber
  obtain ⟨pair, hpair, rfl⟩ := List.mem_map.mp hnumber
  rcases List.mem_append.mp hpair with hpair | hpair
  · exact h.numbers_of_le hle pair.1 (List.mem_map_of_mem hpair)
  · rw [List.mem_singleton.mp hpair]
    exact Nat.lt_of_lt_of_le hid hspaces.count_le

private theorem register_succeeds (scope : Scope) :
    Succeeds (·.map Prod.fst) {} (register scope) (register scope) := by
  have hstart : InRange (·.map Prod.fst) (([], {}) : List (TypeId × SessionType) × Builder) :=
    ⟨bounded_seed, by simp⟩
  refine .foldl scope.session.libraries hstart fun _ _ hcurrent library => ?_
  refine .foldl (scope.offered library) hcurrent fun _ _ hcurrent type => ?_
  exact registerType_succeeds hcurrent library.library type

/-! ### Hints -/

theorem Builder.Bounded.seed_lt (h : builder.Bounded) (hid : id < TypeGraph.seed.types.length) :
    id < builder.count :=
  Nat.lt_of_lt_of_le hid h.seeded

private theorem addHints_advances (h : builder.Bounded) (hid : id < builder.count)
    (hints : List String) :
    Advances builder (builder.passing.addHints hints id) (builder.addHints hints id) := by
  unfold Builder.addHints
  rw [builder.lookAt_passing fun number hnumber => List.mem_singleton.mp hnumber ▸ hid]
  exact mapGraph_advances h (h.closed.modify id fun _ hnode => hnode)
    (Nat.le_of_eq (length_types_modify builder.graph id _).symm)

private theorem addHintsIfAny_advances (h : builder.Bounded) {id : Option TypeId}
    (hid : ∀ number ∈ id.toList, number < builder.count) (hints : List String) :
    Advances builder (addHintsIfAny hints id builder.passing) (addHintsIfAny hints id builder) := by
  cases id with
  | none => exact .refl h
  | some id => exact addHints_advances h (hid id List.mem_cons_self) hints

theorem addEmbedded_frame (session : Session) (graph : TypeGraph) :
    (addEmbedded session graph).types = graph.types ∧
      (addEmbedded session graph).namespaces = graph.namespaces ∧
      (addEmbedded session graph).reachable = graph.reachable := by
  unfold addEmbedded
  induction session.libraries generalizing graph with
  | nil => exact ⟨rfl, rfl, rfl⟩
  | cons library libraries ih =>
      rw [List.foldl_cons, addLibrary]
      cases embedded? session library with
      | none => exact ih graph
      | some index => exact ih (graph.setResources library.name index)

private theorem addEmbedded_advances (h : builder.Bounded) (session : Session) :
    Advances builder (builder.passing.mapGraph (addEmbedded session))
      (builder.mapGraph (addEmbedded session)) := by
  obtain ⟨htypes, hnamespaces, -⟩ := addEmbedded_frame session builder.graph
  refine mapGraph_advances h ?_ (Nat.le_of_eq (congrArg List.length htypes.symm))
  unfold TypeGraph.Closed TypeGraph.numbers
  rw [htypes, hnamespaces, (addEmbedded_annotates session builder.graph).byFullName_eq]
  exact h.closed

private theorem addAddressHints_advances (h : builder.Bounded) (scope : Scope) :
    Advances builder (addAddressHints scope builder.passing) (addAddressHints scope builder) := by
  let all := scope.session.libraries.flatMap (addresses scope)
  let images := (all.filter (scope.settings.isImage ·.path)).map Address.uri
  have hresources := addHints_advances h (h.seed_lt (by decide : Seed.resourceUriId < _))
    (all.map Address.uri)
  have hmarkup := addHints_advances hresources.bounded
    (hresources.bounded.seed_lt (by decide : Seed.markupUriId < _))
    ((all.filter (scope.settings.isMarkup ·.path)).map Address.uri)
  have himage := addHints_advances hmarkup.bounded
    (hmarkup.bounded.seed_lt (by decide : Seed.imageId < _)) images
  have hbitmap := addHints_advances himage.bounded
    (himage.bounded.seed_lt (by decide : Seed.bitmapId < _)) images
  have hicon := addHintsIfAny_advances hbitmap.bounded (fun id hid => Nat.lt_of_lt_of_le
    (mem_find?_lt hmarkup.bounded.closed Known.windowIcon id hid)
    (Nat.le_trans himage.count_le hbitmap.count_le)) images
  have huri := addHints_advances hicon.bounded
    (hicon.bounded.seed_lt (by decide : Seed.imageUriId < _)) images
  refine ⟨?_, huri.bounded, ?_⟩
  · simp only [addAddressHints, all, images, hresources.eq, hmarkup.eq, himage.eq, hbitmap.eq,
      Builder.graph_passing, hicon.eq, huri.eq]
  · exact Nat.le_trans (Nat.le_trans hresources.count_le hmarkup.count_le)
      (Nat.le_trans (Nat.le_trans himage.count_le hbitmap.count_le)
        (Nat.le_trans hicon.count_le huri.count_le))

private theorem mem_numbers_retypeSources {declaring : List TypeId}
    {properties : List TypeGraph.Property}
    (h : id ∈ (properties.map (retypeSource declaring)).flatMap Property.numbers) :
    id ∈ properties.flatMap Property.numbers ∨ id = Seed.markupUriId := by
  rw [List.flatMap_map] at h
  obtain ⟨property, hproperty, h⟩ := List.mem_flatMap.mp h
  have hold (hid : id ∈ property.numbers) : id ∈ properties.flatMap Property.numbers :=
    List.mem_flatMap.mpr ⟨property, hproperty, hid⟩
  unfold retypeSource at h
  split at h
  · rcases List.mem_cons.mp h with rfl | h
    · exact .inl (hold List.mem_cons_self)
    · exact .inr (List.mem_singleton.mp h)
  · exact .inl (hold h)

private theorem length_types_retypeSources (graph : TypeGraph) :
    (retypeSources graph).types.length = graph.types.length := by
  simp [retypeSources]

private theorem retypeSources_advances (h : builder.Bounded) :
    Advances builder (builder.passing.mapGraph retypeSources)
      (builder.mapGraph retypeSources) := by
  have hlength := length_types_retypeSources builder.graph
  refine mapGraph_advances h (closed_of_parts ?_ ?_ ?_) (Nat.le_of_eq hlength.symm)
  · intro node hnode number hnumber
    obtain ⟨old, hold, rfl⟩ := List.mem_map.mp hnode
    have hparts : number ∈ old.numbers ∨ number = Seed.markupUriId := by
      have hproperties := @mem_numbers_retypeSources number
        (Known.includes.filterMap builder.graph.find?) old.properties
      simp only [Node.numbers, List.mem_append] at hnumber ⊢
      tauto
    rw [hlength]
    rcases hparts with hnumber | rfl
    · exact h.closed.types hold number hnumber
    · exact h.seed_lt (by decide)
  · rw [hlength]
    exact fun _ => h.closed.namespaces
  · rw [hlength]
    exact h.closed.byFullName

private theorem addStaticHints_advances (h : builder.Bounded) (scope : Scope) (holder : String)
    {id : Option TypeId} (hid : ∀ number ∈ id.toList, number < builder.count) :
    Advances builder (addStaticHints scope holder id builder.passing)
      (addStaticHints scope holder id builder) := by
  unfold addStaticHints
  cases scope.type? holder with
  | none => exact .refl h
  | some type => exact addHintsIfAny_advances h hid _

private theorem registerAlias_advances (h : builder.Bounded) (names : String × String) :
    Advances builder (registerAlias builder.passing names) (registerAlias builder names) := by
  unfold registerAlias
  rw [Builder.graph_passing]
  cases hfind : builder.graph.find? names.1 with
  | none => exact .refl h
  | some id =>
      exact registerAll_advances h (h.closed.find? hfind) names.2
        (builder.graph.namespacesOf names.1)

private theorem addOfferedHints_advances (h : builder.Bounded) {offered : List TypeId}
    (hoffered : ∀ id ∈ offered, id < builder.count) (hid : id < TypeGraph.seed.types.length)
    (names : TypeGraph → List String) :
    Advances builder ((builder.passing.lookAt offered).addHints (names builder.graph) id)
      (builder.addHints (names builder.graph) id) := by
  rw [builder.lookAt_passing hoffered]
  exact addHints_advances h (h.seed_lt hid) _

private theorem addLateHints_advances (h : builder.Bounded) (scope : Scope) {offered : List TypeId}
    (hoffered : ∀ id ∈ offered, id < builder.count) :
    Advances builder (addLateHints scope offered builder.passing)
      (addLateHints scope offered builder) := by
  have hoffered (count : Nat) (hle : builder.count ≤ count) : ∀ id ∈ offered, id < count :=
    fun id hid => Nat.lt_of_lt_of_le (hoffered id hid) hle
  have haddresses := addAddressHints_advances h scope
  have hsources := retypeSources_advances haddresses.bounded
  have hbrush : ∀ number ∈ (some Seed.brushId).toList,
      number < ((addAddressHints scope builder).mapGraph retypeSources).count := by
    simpa using hsources.bounded.seed_lt (by decide)
  have hbrushes := addStaticHints_advances hsources.bounded scope Known.brushes hbrush
  have hcolors := addStaticHints_advances hbrushes.bounded scope Known.colors
    (mem_find?_lt hbrushes.bounded.closed Known.color)
  have hle := Nat.le_trans (Nat.le_trans haddresses.count_le hsources.count_le)
    (Nat.le_trans hbrushes.count_le hcolors.count_le)
  have hselectors := addOfferedHints_advances hcolors.bounded (hoffered _ hle)
    (by decide : Seed.selectorId < _) (selectorHints offered)
  have hle := Nat.le_trans hle hselectors.count_le
  have hproperties := addOfferedHints_advances hselectors.bounded (hoffered _ hle)
    (by decide : Seed.propertyId < _) fun graph => offered.flatMap (ownAttachedNames graph)
  have haliases := Advances.foldl Known.bindingAliases hproperties.bounded
    fun _ _ hcurrent names _ => registerAlias_advances hcurrent names
  refine ⟨?_, haliases.bounded, ?_⟩
  · simp only [addLateHints, haddresses.eq, hsources.eq, hbrushes.eq, Builder.graph_passing,
      hcolors.eq, Builder.graph_lookAt, hselectors.eq, hproperties.eq, haliases.eq,
      Builder.lookAt_unchecked]
  · exact Nat.le_trans hle (Nat.le_trans hproperties.count_le haliases.count_le)

/-! ### The whole conversion -/

/-- The checks of a conversion succeed. -/
theorem construct_passing (scope : Scope) :
    construct scope = (construct scope : Builder).passing ∧
      (construct scope : Builder).Bounded := by
  have hregister := register_succeeds scope
  have hoffered : ∀ pair ∈ (register scope).1, pair.1 < (register scope).2.count :=
    fun pair hpair => hregister.inRange.numbers pair.1 (List.mem_map_of_mem hpair)
  have hharvest := foldl_harvest_advances hregister.inRange.bounded scope _ hoffered
  have hembedded := addEmbedded_advances hharvest.bounded scope.session
  have hlate := addLateHints_advances hembedded.bounded scope
    (hregister.inRange.numbers_of_le (Nat.le_trans hharvest.count_le hembedded.count_le))
  refine ⟨?_, hlate.bounded⟩
  simp only [construct, complete, hregister.eq, hharvest.eq, hembedded.eq, hlate.eq]

theorem find?_seed {id : TypeId} {node : Node} (h : TypeGraph.seed.get? id = some node) :
    TypeGraph.seed.find? node.fullName = some id := by
  have hall : (List.range TypeGraph.seed.types.length).all fun id =>
      (TypeGraph.seed.get? id).all fun node => TypeGraph.seed.find? node.fullName = some id := by
    decide +kernel
  have hid := List.all_eq_true.mp hall id (List.mem_range.mpr (lt_of_get? h))
  simpa [h] using hid

private theorem convert_indexed (settings : Settings) (session : Session) :
    (convert settings session).Indexed := by
  obtain ⟨final, hrun, hfinal⟩ := run_convert settings session
  rw [← hfinal]
  exact (Run.continues hrun indexed_seed).indexed

/-- A conversion that checks every access has a result, the graph of the session. The graph holds no
number of a type that is not there, in its types, its namespaces and its index of full names. A type
that is found by a name has that name, and a name of the seed still stands for its number. -/
theorem convert_inRange (settings : Settings) (session : Session) :
    convertChecked settings session = some (convert settings session) ∧
      (convert settings session).Closed ∧
      (∀ fullName id, (convert settings session).find? fullName = some id →
        ∃ node, (convert settings session).get? id = some node ∧ node.fullName = fullName) ∧
      ∀ id node, TypeGraph.seed.get? id = some node →
        (convert settings session).find? node.fullName = some id := by
  obtain ⟨hpassing, hbounded⟩ := construct_passing ⟨settings, session⟩
  refine ⟨?_, hbounded.closed, ?_, ?_⟩
  · unfold convertChecked
    rw [hpassing]
    rfl
  · intro fullName id hid
    obtain ⟨node, hnode, -, hname⟩ := (convert_indexed settings session).exists_node hid
    exact ⟨node, hnode, hname⟩
  · intro id node hnode
    obtain ⟨final, hrun, hfinal⟩ := run_convert settings session
    rw [← hfinal]
    exact Run.find?_some hrun (find?_seed hnode)

end XamlAssist.Conversion
