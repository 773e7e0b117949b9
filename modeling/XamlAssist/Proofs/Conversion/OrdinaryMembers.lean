import Mathlib.Data.List.Nodup
import XamlAssist.Proofs.Conversion.MemberFacts
import XamlAssist.Proofs.Session

/-!
# The ordinary members of a converted type

Main statement: in the graph of a session, the members of an offered type that are not attached are
those of its chain of base types that the target sees, the first of each name. They stay as they
are while the other types are converted.
-/

namespace XamlAssist.Conversion

open TypeGraph Library

/-- The members of a type that are not attached are the first of each name in a chain. -/
structure ShowsMembers (access : SessionType → Access) (number : Handle → TypeId → Prop)
    (chain : List SessionType) (node : Node) : Prop where
  properties : List.Forall₂ (ShowsProperty access number)
    (firstOfEach (fun pair => pair.2.name) (seenProperties access chain))
    (node.properties.filter (!·.isAttached))
  events : List.Forall₂ (ShowsEvent number)
    (firstOfEach (fun pair => pair.2.name) (seenEvents access chain))
    (node.events.filter (!·.isAttached))

variable {scope : Scope} {builder : Builder}

theorem ShowsMembers.mono {access : SessionType → Access} {number after : Handle → TypeId → Prop}
    {chain : List SessionType} {node : Node} (h : ShowsMembers access number chain node)
    (hnumber : ∀ handle id, number handle id → after handle id) :
    ShowsMembers access after chain node :=
  ⟨h.properties.imp fun _ _ hshows =>
      { hshows with declaring := hnumber _ _ hshows.declaring },
    h.events.imp fun _ _ hshows => { hshows with declaring := hnumber _ _ hshows.declaring }⟩

private theorem forall₂_imp_of_mem {α β : Type} {R S : α → β → Prop} {as : List α} {bs : List β}
    (h : List.Forall₂ R as bs) (himp : ∀ a ∈ as, ∀ b, R a b → S a b) : List.Forall₂ S as bs := by
  induction h with
  | nil => exact .nil
  | @cons a b _ _ hab _ ih =>
      exact .cons (himp a List.mem_cons_self b hab)
        (ih fun other hmem => himp other (List.mem_cons_of_mem a hmem))

theorem seenEvents_congr {access after : SessionType → Access} {chain : List SessionType}
    (heq : ∀ type ∈ chain, access type = after type) :
    seenEvents access chain = seenEvents after chain :=
  List.flatMap_congr fun type hmem => by rw [heq type hmem]

theorem ShowsMembers.congr {access after : SessionType → Access}
    {number : Handle → TypeId → Prop} {chain : List SessionType} {node : Node}
    (h : ShowsMembers access number chain node) (heq : ∀ type ∈ chain, access type = after type) :
    ShowsMembers after number chain node := by
  have hproperties : seenProperties access chain = seenProperties after chain :=
    List.flatMap_congr fun type hmem => by rw [heq type hmem]
  constructor
  · rw [← hproperties]
    refine forall₂_imp_of_mem h.properties fun declared hmem shown hshows => ?_
    obtain ⟨type, htype, hpair⟩ := List.mem_flatMap.mp (mem_of_mem_firstOfEach _ hmem)
    obtain ⟨property, -, rfl⟩ := List.mem_map.mp hpair
    obtain ⟨hname, hdeclaring, hattached, hstatic, hgetter, hsetter⟩ := hshows
    rw [heq type htype] at hgetter hsetter
    exact ⟨hname, hdeclaring, hattached, hstatic, hgetter, hsetter⟩
  · rw [← seenEvents_congr heq]
    exact h.events

/-! ### Other types of properties -/

private theorem showsProperty_untyped (access : SessionType → Access)
    (number : Handle → TypeId → Prop)
    (declared : SessionType × Library.Property) (shown : TypeGraph.Property) :
    ShowsProperty access number declared { shown with type := none } ↔
      ShowsProperty access number declared shown :=
  ⟨fun h => ⟨h.name, h.declaring, h.isAttached, h.isStatic, h.hasGetter, h.hasSetter⟩,
    fun h => ⟨h.name, h.declaring, h.isAttached, h.isStatic, h.hasGetter, h.hasSetter⟩⟩

theorem ShowsMembers.of_view {access : SessionType → Access} {number : Handle → TypeId → Prop}
    {chain : List SessionType} {node other : Node} (h : ShowsMembers access number chain node)
    (hview : memberView other = memberView node) : ShowsMembers access number chain other := by
  have hevents : other.events = node.events := congrArg (·.2.2) hview
  constructor
  · exact forall₂_of_memberView_eq (showsProperty_untyped access number) (fun _ => rfl) hview
      h.properties
  · rw [hevents]
    exact h.events

/-! ### Attached members -/

private theorem gatherAttachedProperty_filter (access : Access) (type : TypeDecl)
    (declaring : TypeId) (state : List TypeGraph.Property × Builder) (field : Field) :
    (gatherAttachedProperty scope access type declaring state field).1.filter (!·.isAttached) =
      state.1.filter (!·.isAttached) := by
  unfold gatherAttachedProperty
  dsimp only
  split
  · rfl
  split
  · rfl
  split
  · rfl
  · simp

private theorem gatherAttachedEvent_filter (access : Access) (declaring : TypeId)
    (state : List TypeGraph.Event × Builder) (field : Field) :
    (gatherAttachedEvent scope access declaring state field).1.filter (!·.isAttached) =
      state.1.filter (!·.isAttached) := by
  unfold gatherAttachedEvent
  dsimp only
  split
  · rfl
  split
  · rfl
  · simp

private theorem foldl_filter_eq {α μ : Type} {step : List μ × Builder → α → List μ × Builder}
    {p : μ → Bool} (hstep : ∀ state item, (step state item).1.filter p = state.1.filter p)
    (items : List α) (state : List μ × Builder) :
    (items.foldl step state).1.filter p = state.1.filter p := by
  induction items generalizing state with
  | nil => rfl
  | cons item items ih => rw [List.foldl_cons, ih, hstep]

theorem forall_mem_of_forall₂ {α β : Type} {R : α → β → Prop} {P : β → Prop} {as : List α}
    {bs : List β} (h : List.Forall₂ R as bs) (himp : ∀ a b, R a b → P b) : ∀ b ∈ bs, P b := by
  induction h with
  | nil => simp
  | cons hab _ ih => exact List.forall_mem_cons.mpr ⟨himp _ _ hab, ih⟩

/-! ### Conversion of all types -/

/-- The type of the session with the given number has its members. -/
def HasMembers (scope : Scope) (builder : Builder) (id : TypeId) (type : SessionType) : Prop :=
  ∃ node, builder.graph.get? id = some node ∧ node.handle = some type.handle ∧
    ShowsMembers (fun other => scope.accessOf other.library) builder.Numbers
      (scope.baseChain type) node

/-- The members that are not attached come from the chain, and the fields of the type do not change
them. -/
theorem stays_showsMembers (scope : Scope) :
    MemberFact.Stays scope fun number type _ node =>
      ShowsMembers (fun other => scope.accessOf other.library) number (scope.baseChain type)
        node := by
  refine ⟨?_, fun hnumber h => h.mono hnumber, fun hview h => h.of_view hview⟩
  intro builder grown id type gathered argument node htype hgathers
  have hgathered := gatheredFrom_foldl (scope.baseChain type)
    (fun _ => mem_types_of_mem_chainFrom scope htype) builder
  obtain ⟨_, hproperties⟩ := hgathers.properties
  obtain ⟨_, hevents⟩ := hgathers.events
  have hshown := hgathered.properties.imp fun _ _ =>
    (showsProperty_isView scope _).mono hgathers.grown
  have hshownEvents := hgathered.events.imp fun _ _ =>
    (showsEvent_isView scope).mono hgathers.grown
  constructor
  · show List.Forall₂ _ _ (gathered.properties.filter (!·.isAttached))
    rw [hproperties, foldl_filter_eq (gatherAttachedProperty_filter _ _ _),
      List.filter_eq_self.mpr (forall_mem_of_forall₂ hshown fun _ _ h => by simp [h.isAttached])]
    exact hshown
  · show List.Forall₂ _ _ (gathered.events.filter (!·.isAttached))
    rw [hevents, foldl_filter_eq (gatherAttachedEvent_filter _ _),
      List.filter_eq_self.mpr
        (forall_mem_of_forall₂ hshownEvents fun _ _ h => by simp [h.isAttached])]
    exact hshownEvents

theorem HasMembers.annotates {id : TypeId} {type : SessionType} {graph : TypeGraph}
    (h : HasMembers scope builder id type) (hgraph : Annotates builder.graph graph) :
    HasMembers scope { builder with graph } id type :=
  MemberFact.HoldsAt.annotates (stays_showsMembers scope) h hgraph

private theorem foldl_harvest_hasMembers (hdistinct : Distinct scope)
    (hidentified : Identified scope builder)
    {offered : List (TypeId × SessionType)}
    (htypes : ∀ pair ∈ offered, pair.2 ∈ scope.session.types)
    (hlookup : ∀ pair ∈ offered, builder.ids.lookup pair.2.handle = some pair.1) :
    ∀ pair ∈ offered,
      HasMembers scope (offered.foldl (harvest scope) builder) pair.1 pair.2 :=
  foldl_harvest_holdsAt (stays_showsMembers scope) hdistinct hidentified htypes hlookup

/-! ### The graph of a session -/

/-- The type with the given number is the only one of the graph with the given handle. -/
def IsNumberOf (graph : TypeGraph) (handle : Handle) (id : TypeId) : Prop :=
  ∀ other, (∃ node, graph.get? other = some node ∧ node.handle = some handle) ↔ other = id

theorem Identified.isNumberOf (h : Identified scope builder) {handle : Handle} {id : TypeId}
    (hid : builder.ids.lookup handle = some id) : IsNumberOf builder.graph handle id := by
  intro other
  constructor
  · intro hother
    obtain ⟨node, hnode, hhandle⟩ := hother
    have hlabel : builder.graph.labels[other]? = some node.label := by
      rw [labels_getElem?, hnode, Option.map_some]
    exact Option.some.inj ((h.id_of_label hlabel hhandle).symm.trans hid)
  · rintro rfl
    obtain ⟨label, hlabel, hhandle⟩ := h.label_of_id hid
    rw [labels_getElem?] at hlabel
    obtain ⟨node, hnode, rfl⟩ := Option.map_eq_some_iff.mp hlabel
    exact ⟨node, hnode, hhandle⟩

/-- How far the target sees into the library that a type is in. -/
def Scope.homeAccess (scope : Scope) (type : SessionType) : Access :=
  match scope.session.libraries[type.handle.library]? with
  | some library => scope.accessTo library
  | none => .publicOnly

/-- If no two libraries have the same name, the name of a library stands for it. -/
theorem accessOf_eq_homeAccess {settings : Settings} {target : Option String}
    {libraries : List Library} {files : Files.Tree} (hnames : (libraries.map Library.name).Nodup)
    {type : SessionType} (h : type ∈ (Session.withTarget target libraries files).types) :
    Scope.accessOf ⟨settings, Session.withTarget target libraries files⟩ type.library =
      Scope.homeAccess ⟨settings, Session.withTarget target libraries files⟩ type := by
  obtain ⟨library, decl, hlibrary, -, htype⟩ := Session.exists_of_mem_types h
  have hname : type.library = (SessionLibrary.ofLibrary type.handle.library library).name := by
    rw [htype]
    rfl
  have hheld : (Session.withTarget target libraries files).libraries[type.handle.library]? =
      some (SessionLibrary.ofLibrary type.handle.library library) := by
    rw [Session.libraries_getElem?, hlibrary, Option.map_some]
  rw [Scope.homeAccess, hheld, Scope.accessOf]
  cases hfind : (Session.withTarget target libraries files).libraries.reverse.find?
      (·.name = type.library) with
  | none =>
      have hmem := List.mem_reverse.mpr (List.mem_of_getElem? hheld)
      exact absurd hname.symm (by simpa using List.find?_eq_none.mp hfind _ hmem)
  | some found =>
      have hfound : found.name = type.library := by simpa using List.find?_some hfind
      have hmem := List.mem_reverse.mp (List.mem_of_find?_eq_some hfind)
      have hdistinct := hnames
      rw [← @Session.map_name_libraries target libraries files] at hdistinct
      obtain rfl := List.inj_on_of_nodup_map hdistinct hmem (List.mem_of_getElem? hheld)
        (hfound.trans hname)
      rfl

/-- In the graph of a session, an offered type has the ordinary members of its chain of base types
that the target sees, the first of each name. -/
theorem convert_ordinaryMembers (settings : Settings) (target : Option String)
    (libraries : List Library) (files : Files.Tree) (hnames : (libraries.map Library.name).Nodup)
    (hseeded : ∀ a ∈ (Session.withTarget target libraries files).types,
      ∀ b ∈ (Session.withTarget target libraries files).types,
        a.fullName = b.fullName → a.fullName ∈ seedNames → a = b)
    (type : SessionType)
    (htype : type ∈ Scope.allOffered ⟨settings, Session.withTarget target libraries files⟩) :
    let scope : Scope := ⟨settings, Session.withTarget target libraries files⟩
    let graph := convert settings (Session.withTarget target libraries files)
    ∃ chain id node, IsBaseChain scope type chain ∧ IsNumberOf graph type.handle id ∧
      graph.get? id = some node ∧
      ShowsMembers scope.homeAccess (IsNumberOf graph) chain node := by
  intro scope graph
  have hdistinct : Distinct scope := ⟨fun _ ha _ hb => Session.eq_of_handle_eq ha hb, hseeded⟩
  have hregistered := registered_register scope
  have hidentified := (identified_seed scope).run hdistinct hregistered.run
  rw [← hregistered.types_eq] at htype
  obtain ⟨⟨id, type⟩, hpair, rfl⟩ := List.mem_map.mp htype
  have htypes := hregistered.mem_types _ hpair
  have hharvest := foldl_harvest_run hregistered.mem_types hregistered.lookup
  obtain ⟨final, hcomplete, heq⟩ := complete_annotates scope ((register scope).1.map Prod.fst)
    ((register scope).1.foldl (harvest scope) (register scope).2)
  have hgraph : graph = final := congrArg Builder.graph heq
  have hmembers := (foldl_harvest_hasMembers hdistinct hidentified hregistered.mem_types
    hregistered.lookup (id, type) hpair).annotates hcomplete
  have hfinal := (hidentified.run hdistinct hharvest).run hdistinct hcomplete.run
  have hid := Run.lookup hharvest (hregistered.lookup (id, type) hpair)
  obtain ⟨node, hnode, -, hshows⟩ := hmembers
  have hchain : ∀ other ∈ scope.baseChain type,
      scope.accessOf other.library = scope.homeAccess other := fun _ hmem =>
    accessOf_eq_homeAccess hnames (mem_types_of_mem_chainFrom scope htypes hmem)
  rw [hgraph]
  exact ⟨scope.baseChain type, id, node, isBaseChain_baseChain scope type, hfinal.isNumberOf hid,
    hnode, (hshows.mono fun _ _ => hfinal.isNumberOf).congr hchain⟩

/-- A card that is derived from an instance of a generic panel, which is derived from the card
again. The card hides a title of the panel, and a second library describes a type of the seed. -/
def cardLibraries : List Library :=
  [{ name := "App"
     types :=
      [{ namespaceName := "App", name := "Card", baseType := some "Lib.Panel<App.Card>"
         properties :=
          [{ name := "Title", typeName := "System.String", getter := some .everywhere },
           { name := "Secret", typeName := "System.String", getter := some .nowhere }]
         events := [{ name := "Opened", handlerType := "System.EventHandler" }] }] },
   { name := "Lib"
     types :=
      [{ namespaceName := "Lib", name := "Panel`1", baseType := some "App.Card"
         properties :=
          [{ name := "Title", typeName := "System.Object", setter := some .everywhere },
           { name := "Width", typeName := "System.Nullable<App.Card>", isStatic := true
             getter := some .everywhere, setter := some .sameLibrary }] },
       { namespaceName := "System", name := "String"
         properties := [{ name := "Length", typeName := "System.Object"
                          getter := some .everywhere }] }] }]

theorem convert_ordinaryMembers_card :
    let session := Session.withTarget (some "App") cardLibraries {}
    let scope : Scope := ⟨{}, session⟩
    ∃ card ∈ scope.allOffered, card.fullName = "App.Card" ∧
      (cardLibraries.map Library.name).Nodup ∧
      (∀ a ∈ session.types, ∀ b ∈ session.types,
        a.fullName = b.fullName → a.fullName ∈ seedNames → a = b) ∧
      ∃ chain id node, IsBaseChain scope card chain ∧
        IsNumberOf (convert {} session) card.handle id ∧
        (convert {} session).get? id = some node ∧
        ShowsMembers scope.homeAccess (IsNumberOf (convert {} session)) chain node := by
  have hnames : (cardLibraries.map Library.name).Nodup := by decide +kernel
  have hseeded : ∀ a ∈ (Session.withTarget (some "App") cardLibraries {}).types,
      ∀ b ∈ (Session.withTarget (some "App") cardLibraries {}).types,
        a.fullName = b.fullName → a.fullName ∈ seedNames → a = b := by decide +kernel
  have hcard : ∃ card ∈ Scope.allOffered ⟨{}, Session.withTarget (some "App") cardLibraries {}⟩,
      card.fullName = "App.Card" := by decide +kernel
  obtain ⟨card, hmem, hname⟩ := hcard
  exact ⟨card, hmem, hname, hnames, hseeded,
    convert_ordinaryMembers {} (some "App") cardLibraries {} hnames hseeded card hmem⟩

end XamlAssist.Conversion
