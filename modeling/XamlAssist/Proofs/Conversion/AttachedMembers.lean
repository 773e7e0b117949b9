import XamlAssist.Proofs.Conversion.OrdinaryMembers

/-!
# The attached members of a converted type

A static field whose name and type follow a convention stands for an attached member. Main
statement: in the graph of a session, the attached members of an offered type are those that its own
fields stand for, the first of each name, where an attached event also gives way to the ordinary
events of the chain of base types.
-/

namespace XamlAssist.Conversion

open TypeGraph Library

/-! ### Names with a suffix -/

private theorem stem?_eq_some_iff {suffix name stem : String} :
    stem? suffix name = some stem ↔ name = stem ++ suffix := by
  rw [stem?, ← String.toList_inj, String.toList_append]
  constructor
  · intro h
    split at h
    · next hsuffix =>
        obtain ⟨front, hfront⟩ := List.isSuffixOf_iff_suffix.mp hsuffix
        rw [← Option.some.inj h, String.toList_ofList, ← hfront]
        simp
    · exact absurd h (by simp)
  · intro h
    rw [if_pos (List.isSuffixOf_iff_suffix.mpr ⟨stem.toList, h.symm⟩), h]
    simp

/-- A name without a suffix, or the whole name if it does not end with it. -/
def withoutSuffix (suffix name : String) : String := (stem? suffix name).getD name

private theorem withoutSuffix_append (stem suffix : String) :
    withoutSuffix suffix (stem ++ suffix) = stem := by
  rw [withoutSuffix, stem?_eq_some_iff.mpr rfl, Option.getD_some]

/-- The name is what stays of `full` without a suffix. -/
def IsWithoutSuffix (suffix full name : String) : Prop :=
  full = name ++ suffix ∨ full = name ∧ ∀ stem, full ≠ stem ++ suffix

private theorem withoutSuffix_eq_iff {suffix full name : String} :
    withoutSuffix suffix full = name ↔ IsWithoutSuffix suffix full name := by
  unfold withoutSuffix IsWithoutSuffix
  cases hstem : stem? suffix full with
  | none =>
      have hne : ∀ stem, full ≠ stem ++ suffix := fun stem h => by
        rw [stem?_eq_some_iff.mpr h] at hstem
        exact Option.some_ne_none stem hstem
      simp [hne]
  | some stem =>
      obtain rfl := stem?_eq_some_iff.mp hstem
      simp

/-! ### The convention -/

/-- There is a static method that the target sees with the given name and number of parameters. -/
def HasAccessor (access : Access) (decl : TypeDecl) (name : String) (arity : Nat) : Prop :=
  ∃ method ∈ decl.methods, method.isStatic = true ∧ access.allows method.visibility = true ∧
    method.name = name ∧ method.parameters.length = arity

/-- A static field that the target sees and whose type has one of the given definitions. -/
structure IsMarker (access : Access) (definitions : List String) (field : Field) : Prop where
  isStatic : field.isStatic = true
  isSeen : access.allows field.visibility = true
  definition : GenericName.definitionName field.typeName ∈ definitions

/-- A field of a type stands for the attached property with the given name. -/
structure StandsForProperty (access : Access) (decl : TypeDecl) (name : String) (field : Field) :
    Prop where
  marker : IsMarker access [Known.attachedProperty] field
  named : field.name = name ++ "Property"
  nonempty : name ≠ ""
  accessor : HasAccessor access decl ("Get" ++ name) 1 ∨ HasAccessor access decl ("Set" ++ name) 2

/-- A field stands for the attached event with the given name. -/
structure StandsForEvent (access : Access) (name : String) (field : Field) : Prop where
  marker : IsMarker access [Known.routedEvent, Known.typedRoutedEvent] field
  named : IsWithoutSuffix "Event" field.name name
  nonempty : name ≠ ""

section Convention

variable {access : Access} {decl : TypeDecl} {name : String} {field : Field}

private theorem accessor?_isSome_iff {arity : Nat} :
    (accessor? access decl name arity).isSome = true ↔ HasAccessor access decl name arity := by
  simp [accessor?, HasAccessor, List.find?_isSome, and_assoc]

private theorem attachedPropertyName?_eq_some_iff :
    attachedPropertyName? access field = some name ↔
      IsMarker access [Known.attachedProperty] field ∧ field.name = name ++ "Property" ∧
        name ≠ "" := by
  rw [attachedPropertyName?]
  split
  · next h =>
      simp only [Bool.and_eq_true, decide_eq_true_eq] at h
      have hmarker : IsMarker access [Known.attachedProperty] field :=
        ⟨h.1.1, h.1.2, List.mem_singleton.mpr h.2⟩
      rw [properStem?, Option.filter_eq_some_iff, stem?_eq_some_iff]
      simp [hmarker]
  · next h =>
      refine iff_of_false (by simp) fun hstands => h ?_
      simp [hstands.1.isStatic, hstands.1.isSeen, List.mem_singleton.mp hstands.1.definition]

private theorem standsForProperty_iff :
    StandsForProperty access decl name field ↔
      attachedPropertyName? access field = some name ∧
        (HasAccessor access decl ("Get" ++ name) 1 ∨
          HasAccessor access decl ("Set" ++ name) 2) := by
  rw [attachedPropertyName?_eq_some_iff]
  exact ⟨fun h => ⟨⟨h.marker, h.named, h.nonempty⟩, h.accessor⟩,
    fun h => ⟨h.1.1, h.1.2.1, h.1.2.2, h.2⟩⟩

private theorem attachedEventName?_eq_some_iff :
    attachedEventName? access field = some name ↔ StandsForEvent access name field := by
  rw [attachedEventName?]
  split
  · next h =>
      simp only [Bool.and_eq_true, Bool.or_eq_true, decide_eq_true_eq] at h
      have hmarker : IsMarker access [Known.routedEvent, Known.typedRoutedEvent] field :=
        ⟨h.1.1, h.1.2, by simpa using h.2⟩
      show (if (withoutSuffix "Event" field.name).isEmpty then none
        else some (withoutSuffix "Event" field.name)) = some name ↔ _
      rw [Option.ite_none_left_eq_some, Option.some.injEq, withoutSuffix_eq_iff]
      constructor
      · intro hnamed
        rw [withoutSuffix_eq_iff.mpr hnamed.2, String.isEmpty_iff] at hnamed
        exact ⟨hmarker, hnamed.2, hnamed.1⟩
      · intro hstands
        rw [withoutSuffix_eq_iff.mpr hstands.named, String.isEmpty_iff]
        exact ⟨hstands.nonempty, hstands.named⟩
  · next h =>
      refine iff_of_false (by simp) fun hstands => h ?_
      have hdefinition := hstands.marker.definition
      simpa [hstands.marker.isStatic, hstands.marker.isSeen] using hdefinition

private theorem exists_standsForProperty_iff :
    (∃ name, StandsForProperty access decl name field) ↔
      ∃ name ∈ attachedPropertyName? access field,
        HasAccessor access decl ("Get" ++ name) 1 ∨ HasAccessor access decl ("Set" ++ name) 2 := by
  simp only [standsForProperty_iff, Option.mem_def]

private theorem exists_standsForEvent_iff {ordinary : List String} :
    (∃ name, StandsForEvent access name field ∧ name ∉ ordinary) ↔
      ∃ name ∈ attachedEventName? access field, name ∉ ordinary := by
  simp only [← attachedEventName?_eq_some_iff, Option.mem_def]

instance (arity : Nat) : Decidable (HasAccessor access decl name arity) :=
  inferInstanceAs (Decidable (∃ method ∈ decl.methods, _))

instance : Decidable (∃ name, StandsForProperty access decl name field) :=
  decidable_of_iff _ exists_standsForProperty_iff.symm

instance (ordinary : List String) :
    Decidable (∃ name, StandsForEvent access name field ∧ name ∉ ordinary) :=
  decidable_of_iff _ exists_standsForEvent_iff.symm

theorem StandsForProperty.name_eq (h : StandsForProperty access decl name field) :
    name = withoutSuffix "Property" field.name := by
  rw [h.named, withoutSuffix_append]

theorem StandsForEvent.name_eq (h : StandsForEvent access name field) :
    name = withoutSuffix "Event" field.name :=
  (withoutSuffix_eq_iff.mpr h.named).symm

end Convention

/-! ### What is shown -/

/-- How the graph shows the attached property that a field of a type stands for. -/
structure ShowsAttachedProperty (access : Access) (decl : TypeDecl) (declaring : TypeId)
    (field : Field) (shown : TypeGraph.Property) : Prop where
  stands : StandsForProperty access decl shown.name field
  isAttached : shown.isAttached = true
  isStatic : shown.isStatic = true
  declaring : shown.declaring = declaring
  hasGetter : shown.hasGetter = true ↔ HasAccessor access decl ("Get" ++ shown.name) 1
  hasSetter : shown.hasSetter = true ↔ HasAccessor access decl ("Set" ++ shown.name) 2

/-- How the graph shows the attached event that a field of a type stands for. -/
structure ShowsAttachedEvent (access : Access) (declaring : TypeId) (field : Field)
    (shown : TypeGraph.Event) : Prop where
  stands : StandsForEvent access shown.name field
  isAttached : shown.isAttached = true
  declaring : shown.declaring = declaring

/-- The fields of a type that stand for attached properties, the first for each name. -/
def propertyFields (access : Access) (decl : TypeDecl) : List Field :=
  firstOfEach (fun field => withoutSuffix "Property" field.name)
    (decl.fields.filter fun field => ∃ name, StandsForProperty access decl name field)

/-- The fields of a type that stand for attached events that no ordinary event has the name of, the
first for each name. -/
def eventFields (access : Access) (ordinary : List String) (decl : TypeDecl) : List Field :=
  firstOfEach (fun field => withoutSuffix "Event" field.name)
    (decl.fields.filter fun field => ∃ name, StandsForEvent access name field ∧ name ∉ ordinary)

/-- The attached members of a type are those that its fields stand for. -/
structure ShowsAttached (access : SessionType → Access) (chain : List SessionType)
    (type : SessionType) (id : TypeId) (node : Node) : Prop where
  properties : List.Forall₂ (ShowsAttachedProperty (access type) type.decl id)
    (propertyFields (access type) type.decl) (node.properties.filter (·.isAttached))
  events : List.Forall₂ (ShowsAttachedEvent (access type) id)
    (eventFields (access type) ((seenEvents access chain).map (·.2.name)) type.decl)
    (node.events.filter (·.isAttached))

/-! ### One pass over the fields -/

section Pass

variable {scope : Scope} {access : Access} {decl : TypeDecl} {declaring : TypeId} {field : Field}
  {name : String}

private theorem gatherAttachedProperty_of_not_stands
    (h : ¬ ∃ name, StandsForProperty access decl name field)
    (state : List TypeGraph.Property × Builder) :
    gatherAttachedProperty scope access decl declaring state field = state := by
  unfold gatherAttachedProperty
  cases hname : attachedPropertyName? access field with
  | none => rfl
  | some name =>
      dsimp only
      split
      · rfl
      split
      · rfl
      · next haccessors =>
          refine absurd ⟨name, standsForProperty_iff.mpr ⟨hname, ?_⟩⟩ h
          rw [← accessor?_isSome_iff, ← accessor?_isSome_iff]
          cases hgetter : accessor? access decl ("Get" ++ name) 1 with
          | some getter => exact .inl rfl
          | none =>
              cases hsetter : accessor? access decl ("Set" ++ name) 2 with
              | some setter => exact .inr rfl
              | none => simp [hgetter, hsetter] at haccessors

private theorem gatherAttachedProperty_of_known (h : StandsForProperty access decl name field)
    {state : List TypeGraph.Property × Builder}
    (hknown : ∃ property ∈ state.1, property.isAttached = true ∧ property.name = name) :
    gatherAttachedProperty scope access decl declaring state field = state := by
  rw [gatherAttachedProperty, (standsForProperty_iff.mp h).1]
  exact if_pos (by simpa using hknown)

private theorem gatherAttachedProperty_of_new (h : StandsForProperty access decl name field)
    {state : List TypeGraph.Property × Builder}
    (hnew : ¬ ∃ property ∈ state.1, property.isAttached = true ∧ property.name = name) :
    ∃ member next, gatherAttachedProperty scope access decl declaring state field =
        (state.1 ++ [member], next) ∧
      ShowsAttachedProperty access decl declaring field member := by
  have haccessors : ¬ ((accessor? access decl ("Get" ++ name) 1).isNone &&
      (accessor? access decl ("Set" ++ name) 2).isNone) = true := by
    have haccessor := h.accessor
    rw [← accessor?_isSome_iff, ← accessor?_isSome_iff] at haccessor
    rcases haccessor with hsome | hsome
    · simp [Option.isNone_iff_eq_none, Option.isSome_iff_ne_none.mp hsome]
    · simp [Option.isNone_iff_eq_none, Option.isSome_iff_ne_none.mp hsome]
  rw [gatherAttachedProperty, (standsForProperty_iff.mp h).1]
  dsimp only
  rw [if_neg (by simpa using hnew), if_neg haccessors]
  exact ⟨_, _, rfl, h, rfl, rfl, rfl, accessor?_isSome_iff, accessor?_isSome_iff⟩

private theorem gatherAttachedEvent_of_known (h : StandsForEvent access name field)
    {state : List TypeGraph.Event × Builder} (hknown : name ∈ state.1.map TypeGraph.Event.name) :
    gatherAttachedEvent scope access declaring state field = state := by
  rw [gatherAttachedEvent, attachedEventName?_eq_some_iff.mpr h]
  exact if_pos (by simpa using hknown)

private theorem gatherAttachedEvent_of_new (h : StandsForEvent access name field)
    {state : List TypeGraph.Event × Builder} (hnew : name ∉ state.1.map TypeGraph.Event.name) :
    ∃ member next, gatherAttachedEvent scope access declaring state field =
        (state.1 ++ [member], next) ∧
      ShowsAttachedEvent access declaring field member := by
  rw [gatherAttachedEvent, attachedEventName?_eq_some_iff.mpr h]
  dsimp only
  rw [if_neg (by simpa using hnew)]
  exact ⟨_, _, rfl, h, rfl, rfl⟩

variable {α μ : Type} {seen : α → Bool} {key : α → String} {shows : α → μ → Prop}
  {step : List μ × Builder → α → List μ × Builder} {front : List μ}

/-- A pass that leaves what is there and adds behind it what it takes has added the first of each
key in the end. -/
theorem exists_foldl_eq_append
    (hskip : ∀ added taken builder item, List.Forall₂ shows taken added →
      seen item = false ∨ key item ∈ taken.map key →
        step (front ++ added, builder) item = (front ++ added, builder))
    (htake : ∀ added taken builder item, List.Forall₂ shows taken added → seen item = true →
      key item ∉ taken.map key → ∃ member next,
        step (front ++ added, builder) item = (front ++ added ++ [member], next) ∧
          shows item member)
    (items : List α) (builder : Builder) :
    ∃ added, (items.foldl step (front, builder)).1 = front ++ added ∧
      List.Forall₂ shows (firstOfEach key (items.filter seen)) added := by
  have hmap : items.filter seen = [] ++ (items.filter seen).map id := by simp
  rw [hmap]
  refine foldl_firstOfEach key seen id (fun (state : List μ × Builder) taken =>
    ∃ added, state.1 = front ++ added ∧ List.Forall₂ shows taken added) ?_ ?_ items ?_
  · rintro ⟨members, builder⟩ taken item ⟨added, rfl, htaken⟩ h
    exact hskip added taken builder item htaken h
  · rintro ⟨members, builder⟩ taken item ⟨added, rfl, htaken⟩ hseen hnew
    obtain ⟨member, next, heq, hshows⟩ := htake added taken builder item htaken hseen hnew
    refine ⟨added ++ [member], ?_, List.rel_append htaken (.cons hshows .nil)⟩
    rw [heq, List.append_assoc]
  · exact ⟨[], (List.append_nil front).symm, .nil⟩

private theorem exists_attached_iff {front added : List TypeGraph.Property} {taken : List Field}
    (hfront : ∀ property ∈ front, property.isAttached = false)
    (h : List.Forall₂ (ShowsAttachedProperty access decl declaring) taken added) :
    (∃ property ∈ front ++ added, property.isAttached = true ∧ property.name = name) ↔
      name ∈ taken.map fun field => withoutSuffix "Property" field.name := by
  rw [← map_eq_map_of_forall₂ h fun _ _ hshows => hshows.stands.name_eq]
  constructor
  · rintro ⟨property, hmem, hattached, rfl⟩
    rcases List.mem_append.mp hmem with hmem | hmem
    · exact absurd (hfront property hmem) (by simp [hattached])
    · exact List.mem_map_of_mem hmem
  · intro hname
    obtain ⟨property, hmem, rfl⟩ := List.mem_map.mp hname
    have hattached := forall_mem_of_forall₂ h (fun _ _ hshows => hshows.isAttached) property hmem
    exact ⟨property, List.mem_append_right front hmem, hattached, rfl⟩

private theorem foldl_gatherAttachedProperty {front : List TypeGraph.Property}
    (hfront : ∀ property ∈ front, property.isAttached = false) (builder : Builder) :
    ∃ added, (decl.fields.foldl (gatherAttachedProperty scope access decl declaring)
        (front, builder)).1 = front ++ added ∧
      List.Forall₂ (ShowsAttachedProperty access decl declaring) (propertyFields access decl)
        added := by
  apply exists_foldl_eq_append
  · intro added taken builder field htaken h
    by_cases hstands : ∃ name, StandsForProperty access decl name field
    · have hknown := h.resolve_left (by simpa using hstands)
      obtain ⟨name, hstands⟩ := hstands
      rw [← hstands.name_eq, ← exists_attached_iff hfront htaken] at hknown
      exact gatherAttachedProperty_of_known hstands hknown
    · exact gatherAttachedProperty_of_not_stands hstands _
  · intro added taken builder field htaken hseen hnew
    obtain ⟨name, hstands⟩ := of_decide_eq_true hseen
    rw [← hstands.name_eq, ← exists_attached_iff hfront htaken] at hnew
    exact gatherAttachedProperty_of_new hstands hnew

private theorem foldl_gatherAttachedEvent {front : List TypeGraph.Event} {ordinary : List String}
    (hfront : ∀ name, name ∈ front.map TypeGraph.Event.name ↔ name ∈ ordinary)
    (builder : Builder) :
    ∃ added, (decl.fields.foldl (gatherAttachedEvent scope access declaring)
        (front, builder)).1 = front ++ added ∧
      List.Forall₂ (ShowsAttachedEvent access declaring) (eventFields access ordinary decl)
        added := by
  have hnames {added : List TypeGraph.Event} {taken : List Field} (name : String)
      (h : List.Forall₂ (ShowsAttachedEvent access declaring) taken added) :
      name ∈ (front ++ added).map TypeGraph.Event.name ↔
        name ∈ ordinary ∨ name ∈ taken.map fun field => withoutSuffix "Event" field.name := by
    rw [List.map_append, List.mem_append, hfront,
      map_eq_map_of_forall₂ h fun _ _ hshows => hshows.stands.name_eq]
  apply exists_foldl_eq_append
  · intro added taken builder field htaken h
    cases hname : attachedEventName? access field with
    | none => rw [gatherAttachedEvent, hname]
    | some name =>
        have hstands := attachedEventName?_eq_some_iff.mp hname
        apply gatherAttachedEvent_of_known hstands
        rw [hnames name htaken]
        rcases h with h | h
        · by_contra hnew
          exact of_decide_eq_false h ⟨name, hstands, fun hmem => hnew (.inl hmem)⟩
        · rw [← hstands.name_eq] at h
          exact .inr h
  · intro added taken builder field htaken hseen hnew
    obtain ⟨name, hstands, hordinary⟩ := of_decide_eq_true hseen
    apply gatherAttachedEvent_of_new hstands
    rw [hnames name htaken, hstands.name_eq, not_or]
    exact ⟨hstands.name_eq ▸ hordinary, hnew⟩

end Pass

/-! ### The graph of a session -/

private theorem filter_append_of_forall {μ : Type} {p : μ → Bool} {front added : List μ}
    (hfront : ∀ member ∈ front, p member = false) (hadded : ∀ member ∈ added, p member = true) :
    (front ++ added).filter p = added := by
  rw [List.filter_append, List.filter_eq_self.mpr hadded,
    List.filter_eq_nil_iff.mpr fun member hmem => by simp [hfront member hmem], List.nil_append]

theorem ShowsAttached.congr {access after : SessionType → Access} {chain : List SessionType}
    {type : SessionType} {id : TypeId} {node : Node} (h : ShowsAttached access chain type id node)
    (htype : access type = after type) (hchain : ∀ other ∈ chain, access other = after other) :
    ShowsAttached after chain type id node := by
  constructor
  · rw [← htype]
    exact h.properties
  · rw [← htype, ← seenEvents_congr hchain]
    exact h.events

theorem ShowsAttached.of_view {access : SessionType → Access} {chain : List SessionType}
    {type : SessionType} {id : TypeId} {node other : Node}
    (h : ShowsAttached access chain type id node) (hview : memberView other = memberView node) :
    ShowsAttached access chain type id other := by
  have hevents : other.events = node.events := congrArg (·.2.2) hview
  constructor
  · refine forall₂_of_memberView_eq (fun field shown => ?_) (fun _ => rfl) hview h.properties
    exact ⟨fun h => ⟨h.stands, h.isAttached, h.isStatic, h.declaring, h.hasGetter, h.hasSetter⟩,
      fun h => ⟨h.stands, h.isAttached, h.isStatic, h.declaring, h.hasGetter, h.hasSetter⟩⟩
  · rw [hevents]
    exact h.events

private theorem GatheredFrom.mem_eventNames {access : SessionType → Access}
    {chain : List SessionType}
    {state : Gathered × Builder} (h : GatheredFrom access chain state) (name : String) :
    name ∈ state.1.events.map TypeGraph.Event.name ↔
      name ∈ (seenEvents access chain).map (·.2.name) := by
  rw [map_eq_map_of_forall₂ h.events fun _ _ hshows => hshows.name, mem_map_firstOfEach]

private theorem stays_showsAttached (scope : Scope) :
    MemberFact.Stays scope fun _ type id node =>
      ShowsAttached (fun other => scope.accessOf other.library) (scope.baseChain type) type id
        node := by
  refine ⟨?_, fun _ h => h, fun hview h => h.of_view hview⟩
  intro builder grown id type gathered argument node htype hgathers
  have hgathered := gatheredFrom_foldl (scope.baseChain type)
    (fun _ => mem_types_of_mem_chainFrom scope htype) builder
  have hordinary := forall_mem_of_forall₂ hgathered.properties fun _ _ h => h.isAttached
  have hordinaryEvents := forall_mem_of_forall₂ hgathered.events fun _ _ h => h.isAttached
  constructor
  · obtain ⟨start, hproperties⟩ := hgathers.properties
    obtain ⟨added, hadded, hshown⟩ := foldl_gatherAttachedProperty hordinary start
    show List.Forall₂ _ _ (gathered.properties.filter (·.isAttached))
    rw [hproperties, hadded, filter_append_of_forall hordinary
      (forall_mem_of_forall₂ hshown fun _ _ h => h.isAttached)]
    exact hshown
  · obtain ⟨start, hevents⟩ := hgathers.events
    obtain ⟨added, hadded, hshown⟩ := foldl_gatherAttachedEvent hgathered.mem_eventNames start
    show List.Forall₂ _ _ (gathered.events.filter (·.isAttached))
    rw [hevents, hadded, filter_append_of_forall hordinaryEvents
      (forall_mem_of_forall₂ hshown fun _ _ h => h.isAttached)]
    exact hshown

/-- In the graph of a session, the attached members of an offered type are those that its fields
stand for: attached properties that have an accessor, and attached events whose names no ordinary
event of the chain of base types has, the first of each name. -/
theorem convert_attachedMembers (settings : Settings) (target : Option String)
    (libraries : List Library) (files : Files.Tree) (hnames : (libraries.map Library.name).Nodup)
    (hseeded : ∀ a ∈ (Session.withTarget target libraries files).types,
      ∀ b ∈ (Session.withTarget target libraries files).types,
        a.fullName = b.fullName → a.fullName ∈ seedNames → a = b)
    (type : SessionType)
    (htype : type ∈ Scope.allOffered ⟨settings, Session.withTarget target libraries files⟩) :
    let scope : Scope := ⟨settings, Session.withTarget target libraries files⟩
    let graph := convert settings (Session.withTarget target libraries files)
    ∃ chain id node, IsBaseChain scope type chain ∧ IsNumberOf graph type.handle id ∧
      graph.get? id = some node ∧ ShowsAttached scope.homeAccess chain type id node := by
  intro scope graph
  have hdistinct : Distinct scope := ⟨fun _ ha _ hb => Session.eq_of_handle_eq ha hb, hseeded⟩
  obtain ⟨library, hlibrary, hoffered⟩ := List.mem_flatMap.mp htype
  have hsession := mem_types_of_mem_offered hlibrary hoffered
  obtain ⟨final, id, hgraph, hidentified, hid, node, hnode, -, hshows⟩ :=
    convert_holdsAt (stays_showsAttached scope) hdistinct htype
  have hnumber := hidentified.isNumberOf hid
  rw [hgraph] at hnode hnumber
  have hhome {other : SessionType} (hother : other ∈ scope.session.types) :
      scope.accessOf other.library = scope.homeAccess other :=
    accessOf_eq_homeAccess hnames hother
  exact ⟨scope.baseChain type, id, node, isBaseChain_baseChain scope type, hnumber, hnode,
    hshows.congr (hhome hsession) fun _ hmem =>
      hhome (mem_types_of_mem_chainFrom scope hsession hmem)⟩

/-- A dock that is derived from a panel with the event `Opened`. Its fields for `Column`, for
`Opened` and for the second `Shown` stand for nothing: the first has no accessor that is seen, and
the names of the others are taken. -/
def dockLibraries : List Library :=
  [{ name := "App"
     types :=
      [{ namespaceName := "App", name := "Dock", baseType := some "Lib.Panel"
         fields :=
          [{ name := "RowProperty", typeName := "Avalonia.AttachedProperty<System.Object>"
             isStatic := true },
           { name := "ColumnProperty", typeName := "Avalonia.AttachedProperty<System.Object>"
             isStatic := true },
           { name := "OpenedEvent", typeName := "Avalonia.Interactivity.RoutedEvent"
             isStatic := true },
           { name := "ShownEvent", typeName := "Avalonia.Interactivity.RoutedEvent"
             isStatic := true },
           { name := "Shown", typeName := "Avalonia.Interactivity.RoutedEvent<App.Dock>"
             isStatic := true }]
         methods :=
          [{ name := "GetRow", isStatic := true, parameters := [{ typeName := "App.Dock" }] },
           { name := "GetColumn", isStatic := true, visibility := .nowhere
             parameters := [{ typeName := "App.Dock" }] }] }] },
   { name := "Lib"
     types :=
      [{ namespaceName := "Lib", name := "Panel"
         events := [{ name := "Opened", handlerType := "System.EventHandler" }] }] }]

theorem convert_attachedMembers_dock :
    let session := Session.withTarget (some "App") dockLibraries {}
    let scope : Scope := ⟨{}, session⟩
    ∃ dock ∈ scope.allOffered, dock.fullName = "App.Dock" ∧
      (propertyFields (scope.homeAccess dock) dock.decl).map Field.name = ["RowProperty"] ∧
      (eventFields (scope.homeAccess dock) ["Opened"] dock.decl).map Field.name = ["ShownEvent"] ∧
      (dockLibraries.map Library.name).Nodup ∧
      (∀ a ∈ session.types, ∀ b ∈ session.types,
        a.fullName = b.fullName → a.fullName ∈ seedNames → a = b) ∧
      ∃ chain id node, IsBaseChain scope dock chain ∧
        IsNumberOf (convert {} session) dock.handle id ∧
        (convert {} session).get? id = some node ∧
        ShowsAttached scope.homeAccess chain dock id node := by
  intro session scope
  have hnames : (dockLibraries.map Library.name).Nodup := by decide +kernel
  have hseeded : ∀ a ∈ session.types, ∀ b ∈ session.types,
      a.fullName = b.fullName → a.fullName ∈ seedNames → a = b := by decide +kernel
  have hdock : ∃ dock ∈ scope.allOffered, dock.fullName = "App.Dock" ∧
      (propertyFields (scope.homeAccess dock) dock.decl).map Field.name = ["RowProperty"] ∧
      (eventFields (scope.homeAccess dock) ["Opened"] dock.decl).map Field.name =
        ["ShownEvent"] := by decide +kernel
  obtain ⟨dock, hmem, hname, hproperties, hevents⟩ := hdock
  exact ⟨dock, hmem, hname, hproperties, hevents, hnames, hseeded,
    convert_attachedMembers {} (some "App") dockLibraries {} hnames hseeded dock hmem⟩

end XamlAssist.Conversion
