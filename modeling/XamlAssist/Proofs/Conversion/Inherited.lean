import Mathlib.Data.List.Forall2
import XamlAssist.Proofs.Conversion.Identity
import XamlAssist.Proofs.Ordered

/-!
# Members from the chain of base types

What a pass over the members of a chain of types gathers: those that the target sees, the first of
each name, with the type that declares them.
-/

namespace XamlAssist.Conversion

open TypeGraph Library

/-- The type of the session with the given handle was met under the given number. -/
def Builder.Numbers (builder : Builder) (handle : Handle) (id : TypeId) : Prop :=
  builder.ids.lookup handle = some id

/-! ### One pass over declared members -/

section Pass

variable {α μ : Type}

theorem map_eq_map_of_forall₂ {β γ : Type} {R : α → β → Prop} {f : α → γ} {g : β → γ} {as : List α}
    {bs : List β} (h : List.Forall₂ R as bs) (heq : ∀ a b, R a b → g b = f a) :
    bs.map g = as.map f := by
  induction h with
  | nil => rfl
  | cons hfirst _ ih => rw [List.map_cons, List.map_cons, heq _ _ hfirst, ih]

/-- A pass over members that the type `owner` with the number `id` declares takes those that are
seen and whose names are new, and `shows` relates what is declared to what is taken. -/
structure TakesNew (scope : Scope) (owner : SessionType) (id : TypeId) (seen : α → Bool)
    (key : α → String) (name : μ → String) (shows : Builder → SessionType × α → μ → Prop)
    (step : List μ × Builder → α → List μ × Builder) : Prop where
  skip : ∀ members builder declared, seen declared = false ∨ key declared ∈ members.map name →
    step (members, builder) declared = (members, builder)
  take : ∀ members builder declared, builder.Numbers owner.handle id →
    seen declared = true → key declared ∉ members.map name →
    ∃ member next, step (members, builder) declared = (members ++ [member], next) ∧
      Requests scope builder next ∧ shows next (owner, declared) member

/-- The relation between what is declared and what is shown keeps the names and outlasts
requests. -/
structure IsView (scope : Scope) (key : α → String) (name : μ → String)
    (shows : Builder → SessionType × α → μ → Prop) : Prop where
  name_eq : ∀ {builder declared member}, shows builder declared member →
    name member = key declared.2
  mono : ∀ {builder next declared member}, Requests scope builder next →
    shows builder declared member → shows next declared member

variable {scope : Scope} {owner : SessionType} {id : TypeId} {seen : α → Bool} {key : α → String}
  {name : μ → String} {shows : Builder → SessionType × α → μ → Prop}
  {step : List μ × Builder → α → List μ × Builder}

private theorem IsView.map_name_eq (hview : IsView scope key name shows) {builder : Builder}
    {declared : List (SessionType × α)} {members : List μ}
    (h : List.Forall₂ (shows builder) declared members) :
    members.map name = declared.map fun pair => key pair.2 :=
  map_eq_map_of_forall₂ h fun _ _ => hview.name_eq

private theorem foldl_takesNew (hview : IsView scope key name shows)
    (hstep : TakesNew scope owner id seen key name shows step) (items : List α)
    {before : List (SessionType × α)} {members : List μ} {builder : Builder}
    (hid : builder.Numbers owner.handle id)
    (h : List.Forall₂ (shows builder) (firstOfEach (fun pair => key pair.2) before) members) :
    List.Forall₂ (shows (items.foldl step (members, builder)).2)
        (firstOfEach (fun pair => key pair.2) (before ++ (items.filter seen).map (owner, ·)))
        (items.foldl step (members, builder)).1 ∧
      Requests scope builder (items.foldl step (members, builder)).2 := by
  refine foldl_firstOfEach (fun pair => key pair.2) seen (owner, ·)
    (fun (state : List μ × Builder) taken => List.Forall₂ (shows state.2) taken state.1 ∧
      Requests scope builder state.2) ?_ ?_ items ?_
  · intro state taken item hstate hskip
    rw [← hview.map_name_eq hstate.1] at hskip
    exact hstep.skip state.1 state.2 item hskip
  · intro state taken item hstate hseen hnew
    rw [← hview.map_name_eq hstate.1] at hnew
    obtain ⟨member, next, heq, hrequests, hshows⟩ :=
      hstep.take state.1 state.2 item (hstate.2.grows.lookup hid) hseen hnew
    rw [heq]
    exact ⟨List.rel_append (hstate.1.imp fun _ _ => hview.mono hrequests) (.cons hshows .nil),
      hstate.2.trans hrequests⟩
  · exact ⟨h, .refl⟩

end Pass

/-! ### Properties and events -/

/-- How the graph shows a property that a type of the session declares. -/
structure ShowsProperty (access : SessionType → Access) (number : Handle → TypeId → Prop)
    (declared : SessionType × Library.Property) (shown : TypeGraph.Property) : Prop where
  name : shown.name = declared.2.name
  declaring : number declared.1.handle shown.declaring
  isAttached : shown.isAttached = false
  isStatic : shown.isStatic = declared.2.isStatic
  hasGetter : shown.hasGetter = declared.2.getter.any (access declared.1).allows
  hasSetter : shown.hasSetter = declared.2.setter.any (access declared.1).allows

/-- How the graph shows an event that a type of the session declares. -/
structure ShowsEvent (number : Handle → TypeId → Prop) (declared : SessionType × Library.Event)
    (shown : TypeGraph.Event) : Prop where
  name : shown.name = declared.2.name
  declaring : number declared.1.handle shown.declaring
  isAttached : shown.isAttached = false

/-- Whether a property can be read or written by the target. -/
def isSeen (access : Access) (property : Library.Property) : Bool :=
  property.getter.any access.allows || property.setter.any access.allows

/-- The properties that the types of a chain declare and the target sees. -/
def seenProperties (access : SessionType → Access) (chain : List SessionType) :
    List (SessionType × Library.Property) :=
  chain.flatMap fun type => (type.decl.properties.filter (isSeen (access type))).map (type, ·)

/-- The events that the types of a chain declare and the target sees. -/
def seenEvents (access : SessionType → Access) (chain : List SessionType) :
    List (SessionType × Library.Event) :=
  chain.flatMap fun type =>
    (type.decl.events.filter fun event => (access type).allows event.visibility).map (type, ·)

variable (scope : Scope) (access : SessionType → Access)

theorem showsProperty_isView :
    IsView scope Library.Property.name TypeGraph.Property.name fun builder =>
      ShowsProperty access builder.Numbers :=
  ⟨fun h => h.name, fun hrequests h => { h with declaring := hrequests.grows.lookup h.declaring }⟩

theorem showsEvent_isView :
    IsView scope Library.Event.name TypeGraph.Event.name fun builder =>
      ShowsEvent builder.Numbers :=
  ⟨fun h => h.name, fun hrequests h => { h with declaring := hrequests.grows.lookup h.declaring }⟩

private theorem gatherProperty_takesNew (owner : SessionType) (id : TypeId) :
    TakesNew scope owner id (isSeen (access owner)) Library.Property.name TypeGraph.Property.name
      (fun builder => ShowsProperty access builder.Numbers)
      (gatherProperty scope (access owner) id) := by
  constructor
  · intro members builder declared h
    have hskip : (!isSeen (access owner) declared ||
        members.any (·.name = declared.name)) = true := by
      rcases h with h | h
      · simp [h]
      · simpa using Or.inr h
    exact if_pos hskip
  · intro members builder declared hid hseen hnew
    have htake : ¬ (!isSeen (access owner) declared ||
        members.any (·.name = declared.name)) = true := by
      simpa [hseen] using hnew
    have hrequests := resolve_requests scope declared.typeName builder
    refine ⟨_, _, if_neg htake, hrequests, ?_⟩
    exact ⟨rfl, hrequests.grows.lookup hid, rfl, rfl, rfl, rfl⟩

private theorem gatherEvent_takesNew (owner : SessionType) (id : TypeId) :
    TakesNew scope owner id (fun event => (access owner).allows event.visibility)
      Library.Event.name TypeGraph.Event.name
      (fun builder => ShowsEvent builder.Numbers)
      (gatherEvent scope (access owner) id) := by
  constructor
  · intro members builder declared h
    have hskip : (!(access owner).allows declared.visibility ||
        members.any (·.name = declared.name)) = true := by
      rcases h with h | h
      · simp [h]
      · simpa using Or.inr h
    exact if_pos hskip
  · intro members builder declared hid hseen hnew
    have htake : ¬ (!(access owner).allows declared.visibility ||
        members.any (·.name = declared.name)) = true := by
      simpa [hseen] using hnew
    have hrequests := resolveArguments_requests scope declared.handlerType builder
    refine ⟨_, _, if_neg htake, hrequests, ?_⟩
    exact ⟨rfl, hrequests.grows.lookup hid, rfl⟩

/-! ### Chains -/

/-- The members gathered so far are the first of each name in the chain so far. -/
structure GatheredFrom (access : SessionType → Access) (chain : List SessionType)
    (state : Gathered × Builder) : Prop where
  properties : List.Forall₂ (ShowsProperty access state.2.Numbers)
    (firstOfEach (fun pair => pair.2.name) (seenProperties access chain)) state.1.properties
  events : List.Forall₂ (ShowsEvent state.2.Numbers)
    (firstOfEach (fun pair => pair.2.name) (seenEvents access chain)) state.1.events

variable {scope : Scope}

theorem GatheredFrom.gatherType {chain : List SessionType} {state : Gathered × Builder}
    (h : GatheredFrom (fun type => scope.accessOf type.library) chain state) {type : SessionType}
    (htype : type ∈ scope.session.types) :
    GatheredFrom (fun type => scope.accessOf type.library) (chain ++ [type])
      (gatherType scope state type) := by
  have hensure := ensure_requests state.2 htype
  have hnumbers := lookup_ensure state.2 type
  obtain ⟨hpropertiesEq, heventsEq, hlast⟩ := gatherType_spec scope state type
  have hproperties : seenProperties (fun type => scope.accessOf type.library) (chain ++ [type]) =
      seenProperties (fun type => scope.accessOf type.library) chain ++
        (type.decl.properties.filter (isSeen (scope.accessOf type.library))).map (type, ·) := by
    simp [seenProperties]
  have hevents : seenEvents (fun type => scope.accessOf type.library) (chain ++ [type]) =
      seenEvents (fun type => scope.accessOf type.library) chain ++
        (type.decl.events.filter fun event =>
          (scope.accessOf type.library).allows event.visibility).map (type, ·) := by
    simp [seenEvents]
  obtain ⟨hshownProperties, hrequestsProperties⟩ :=
    foldl_takesNew (showsProperty_isView scope _)
      (gatherProperty_takesNew scope (fun type => scope.accessOf type.library) type _)
      type.decl.properties hnumbers
      (h.properties.imp fun _ _ => (showsProperty_isView scope _).mono hensure)
  obtain ⟨hshownEvents, hrequestsEvents⟩ :=
    foldl_takesNew (showsEvent_isView scope)
      (gatherEvent_takesNew scope (fun type => scope.accessOf type.library) type _)
      type.decl.events (hrequestsProperties.grows.lookup hnumbers)
      (h.events.imp fun _ _ => (showsEvent_isView scope).mono (hensure.trans hrequestsProperties))
  constructor
  · rw [hproperties, hpropertiesEq]
    exact hshownProperties.imp fun _ _ =>
      (showsProperty_isView scope _).mono (hrequestsEvents.trans hlast)
  · rw [hevents, heventsEq]
    exact hshownEvents.imp fun _ _ => (showsEvent_isView scope).mono hlast

theorem GatheredFrom.foldl {chain : List SessionType} {state : Gathered × Builder}
    (h : GatheredFrom (fun type => scope.accessOf type.library) chain state)
    (rest : List SessionType) (hrest : ∀ type ∈ rest, type ∈ scope.session.types) :
    GatheredFrom (fun type => scope.accessOf type.library) (chain ++ rest)
      (rest.foldl (Conversion.gatherType scope) state) := by
  induction rest generalizing chain state with
  | nil =>
      rw [List.append_nil]
      exact h
  | cons type rest ih =>
      have hnext := h.gatherType (hrest type List.mem_cons_self)
      have hfinal := ih hnext fun other hmem => hrest other (List.mem_cons_of_mem type hmem)
      rw [List.append_assoc, List.singleton_append] at hfinal
      exact hfinal

/-- A pass over a chain of types gathers the first members of each name. -/
theorem gatheredFrom_foldl (chain : List SessionType)
    (hchain : ∀ type ∈ chain, type ∈ scope.session.types) (builder : Builder) :
    GatheredFrom (fun type => scope.accessOf type.library) chain
      (chain.foldl (gatherType scope) ({}, builder)) := by
  have hstart : GatheredFrom (fun type => scope.accessOf type.library) [] ({}, builder) :=
    ⟨.nil, .nil⟩
  exact hstart.foldl chain hchain

end XamlAssist.Conversion
