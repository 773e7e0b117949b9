import XamlAssist.Proofs.Conversion.Counterpart
import XamlAssist.Proofs.Conversion.OrdinaryMembers

/-!
# Members that the target does not see

Main statement: `convert_withoutHidden`, the graph of a session is that of the session from which
all members are taken away that the target does not see.
-/

namespace XamlAssist.Library

/-- A property without the accessors that are not seen. -/
def Property.withoutHidden (access : Access) (property : Property) : Property :=
  { property with
    getter := property.getter.filter access.allows
    setter := property.setter.filter access.allows }

/-- A type without the members that are not seen. Methods of an instance stay, since they are looked
at whatever their visibility is, and of the constructors only the public ones stay. -/
def TypeDecl.withoutHidden (access : Access) (type : TypeDecl) : TypeDecl :=
  { type with
    properties := type.properties.map (·.withoutHidden access)
    fields := type.fields.filter (access.allows ·.visibility)
    events := type.events.filter (access.allows ·.visibility)
    methods := type.methods.filter fun method =>
      !method.isStatic || access.allows method.visibility
    constructors := type.constructors.filter (·.visibility.isPublic) }

/-- A library without the members of its types that are not seen. -/
def withoutHidden (access : Access) (library : Library) : Library :=
  { library with types := library.types.map (·.withoutHidden access) }

private theorem any_filter_allows (access : Access) (visibility : Option Visibility) :
    (visibility.filter access.allows).any access.allows = visibility.any access.allows := by
  cases visibility with
  | none => rfl
  | some visibility => cases h : access.allows visibility <;> simp [Option.filter, h]

private theorem any_filter_isPublic (access : Access) (visibility : Option Visibility) :
    (visibility.filter access.allows).any (·.isPublic) = visibility.any (·.isPublic) := by
  cases visibility with
  | none => rfl
  | some visibility => cases visibility <;> cases access <;> rfl

end XamlAssist.Library

namespace XamlAssist.Conversion

open TypeGraph Library

variable {scope : Scope} {access : Access}

/-! ### Gathering -/

private theorem foldl_filter_of_skips {σ α : Type} {step : σ → α → σ} {seen : α → Bool}
    (hskip : ∀ state item, seen item = false → step state item = state) (items : List α)
    (state : σ) : (items.filter seen).foldl step state = items.foldl step state := by
  rw [List.foldl_filter]
  refine List.foldl_ext _ _ _ fun state item _ => ?_
  split
  · rfl
  · next h => exact (hskip state item (Bool.not_eq_true _ ▸ h)).symm

private theorem gatherProperty_withoutHidden (declaring : TypeId)
    (state : List TypeGraph.Property × Builder) (property : Library.Property) :
    gatherProperty scope access declaring state (property.withoutHidden access) =
      gatherProperty scope access declaring state property := by
  simp only [gatherProperty, Property.withoutHidden, any_filter_allows]
  rfl

private theorem gatherEvent_of_hidden (declaring : TypeId) (state : List TypeGraph.Event × Builder)
    (event : Library.Event) (h : access.allows event.visibility = false) :
    gatherEvent scope access declaring state event = state := by
  simp [gatherEvent, h]

private theorem accessor?_withoutHidden (type : TypeDecl) (name : String) (arity : Nat) :
    accessor? access (type.withoutHidden access) name arity =
      accessor? access type name arity := by
  rw [accessor?, accessor?, TypeDecl.withoutHidden, List.find?_filter]
  congr 1
  funext method
  cases method.isStatic <;> cases access.allows method.visibility <;> simp

private theorem gatherAttachedProperty_withoutHidden (type : TypeDecl) (declaring : TypeId) :
    gatherAttachedProperty scope access (type.withoutHidden access) declaring =
      gatherAttachedProperty scope access type declaring := by
  funext state field
  simp only [gatherAttachedProperty, accessor?_withoutHidden]

private theorem gatherAttachedProperty_of_hidden (type : TypeDecl) (declaring : TypeId)
    (state : List TypeGraph.Property × Builder) (field : Field)
    (h : access.allows field.visibility = false) :
    gatherAttachedProperty scope access type declaring state field = state := by
  simp [gatherAttachedProperty, attachedPropertyName?, h]

private theorem gatherAttachedEvent_of_hidden (declaring : TypeId)
    (state : List TypeGraph.Event × Builder) (field : Field)
    (h : access.allows field.visibility = false) :
    gatherAttachedEvent scope access declaring state field = state := by
  simp [gatherAttachedEvent, attachedEventName?, h]

private theorem gatherArgument_of_hidden (state : ArgumentKinds × Builder) (constructor : Method)
    (h : constructor.visibility.isPublic = false) :
    gatherArgument scope state constructor = state := by
  simp [gatherArgument, h]

private theorem staticNames_withoutHidden (type : TypeDecl) :
    staticNames (type.withoutHidden access) = staticNames type := by
  simp only [staticNames, TypeDecl.withoutHidden, List.filter_map, List.map_map]
  congr 1
  refine List.filter_congr fun property _ => ?_
  simp only [Function.comp_apply, Property.withoutHidden, any_filter_isPublic]

/-- A type of a session without the members that are not seen. -/
def hideMembers (scope : Scope) (type : SessionType) : SessionType :=
  { type with decl := type.decl.withoutHidden (scope.homeAccess type) }

private theorem decl_hideMembers (type : SessionType) :
    (hideMembers scope type).decl = type.decl.withoutHidden (scope.homeAccess type) :=
  rfl

private theorem describe_hideMembers (type : SessionType) :
    describe (hideMembers scope type) = describe type :=
  rfl

private theorem providesValue_hideMembers (type : SessionType) :
    providesValue (hideMembers scope type) = providesValue type := by
  have hmethods : (hideMembers scope type).decl.methods.any (fun method =>
      method.name = "ProvideValue" && !method.isStatic && method.parameters.length = 1) =
        type.decl.methods.any fun method =>
          method.name = "ProvideValue" && !method.isStatic && method.parameters.length = 1 := by
    rw [decl_hideMembers, TypeDecl.withoutHidden, List.any_filter]
    congr 1
    funext method
    cases method.isStatic <;> simp
  rw [providesValue, providesValue, hmethods]
  rfl

private theorem gatherType_hideMembers {type : SessionType}
    (h : scope.accessOf type.library = scope.homeAccess type) (state : Gathered × Builder) :
    gatherType scope state (hideMembers scope type) = gatherType scope state type := by
  have hproperties (declaring : TypeId) (state : List TypeGraph.Property × Builder) :
      (hideMembers scope type).decl.properties.foldl
          (gatherProperty scope (scope.homeAccess type) declaring) state =
        type.decl.properties.foldl
          (gatherProperty scope (scope.homeAccess type) declaring) state := by
    rw [decl_hideMembers, TypeDecl.withoutHidden, List.foldl_map]
    exact List.foldl_ext _ _ _ fun state property _ =>
      gatherProperty_withoutHidden declaring state property
  have hevents (declaring : TypeId) (state : List TypeGraph.Event × Builder) :
      (hideMembers scope type).decl.events.foldl
          (gatherEvent scope (scope.homeAccess type) declaring) state =
        type.decl.events.foldl (gatherEvent scope (scope.homeAccess type) declaring) state :=
    foldl_filter_of_skips (gatherEvent_of_hidden declaring) _ state
  have hlibrary : (hideMembers scope type).library = type.library := rfl
  simp only [gatherType, ensure_eq_of_describe (describe_hideMembers type), hlibrary, h,
    hproperties, hevents, providesValue_hideMembers]
  rfl

/-- In one and the same session, a type gives the same members as without those that are not
seen. -/
theorem gathersAlike_hideMembers {type : SessionType}
    (h : scope.accessOf type.library = scope.homeAccess type) :
    GathersAlike scope scope type (hideMembers scope type) := by
  have hlibrary : (hideMembers scope type).library = type.library := rfl
  constructor
  · exact gatherType_hideMembers h
  · intro id state
    rw [hlibrary, h, hideMembers, gatherAttachedProperty_withoutHidden]
    exact foldl_filter_of_skips (gatherAttachedProperty_of_hidden type.decl id) _ state
  · intro id state
    rw [hlibrary, h]
    exact foldl_filter_of_skips (gatherAttachedEvent_of_hidden id) _ state
  · exact fun state => foldl_filter_of_skips gatherArgument_of_hidden _ state

/-! ### Sessions -/

/-- A library of a session without the members that are not seen. -/
def hideLibrary (scope : Scope) (library : SessionLibrary) : SessionLibrary :=
  { library := library.library.withoutHidden (scope.accessTo library)
    types := library.types.map (hideMembers scope) }

/-- A session without the members that are not seen. -/
def Scope.hide (scope : Scope) : Scope :=
  { scope with
    session :=
      { scope.session with libraries := scope.session.libraries.map (hideLibrary scope) } }

private theorem type?_hide (name : String) :
    scope.hide.type? name = (scope.type? name).map (hideMembers scope) := by
  have htypes : scope.hide.session.types = scope.session.types.map (hideMembers scope) := by
    simp [Scope.hide, Session.types, List.flatMap_map, List.map_flatMap, hideLibrary]
  rw [Scope.type?, Scope.type?, htypes, List.find?_map]
  rfl

private theorem targetIdentity_hide : scope.hide.targetIdentity = scope.targetIdentity := by
  simp only [Scope.targetIdentity, Scope.hide, List.find?_map]
  cases scope.session.target with
  | none => rfl
  | some target =>
      change ((scope.session.libraries.find? (·.name = target)).map (hideLibrary scope)).bind _ = _
      rw [Option.bind_map]
      rfl

private theorem accessTo_hide (library : SessionLibrary) :
    scope.hide.accessTo (hideLibrary scope library) = scope.accessTo library := by
  rw [Scope.accessTo, targetIdentity_hide]
  rfl

private theorem accessOf_hide (name : String) : scope.hide.accessOf name = scope.accessOf name := by
  have hfind : scope.hide.session.libraries.reverse.find? (·.name = name) =
      (scope.session.libraries.reverse.find? (·.name = name)).map (hideLibrary scope) := by
    rw [Scope.hide, ← List.map_reverse, List.find?_map]
    rfl
  rw [Scope.accessOf, Scope.accessOf, hfind]
  cases scope.session.libraries.reverse.find? (·.name = name) with
  | none => rfl
  | some library => exact accessTo_hide library

private theorem offered_hide (library : SessionLibrary) :
    scope.hide.offered (hideLibrary scope library) =
      (scope.offered library).map (hideMembers scope) := by
  rw [Scope.offered, accessTo_hide, hideLibrary, List.filter_map]
  rfl

/-- The offered types that were noted so far without the members that are not seen. -/
def hideOffered (scope : Scope) (state : List (TypeId × SessionType) × Builder) :
    List (TypeId × SessionType) × Builder :=
  (state.1.map (Prod.map id (hideMembers scope)), state.2)

private theorem registerType_hide (library : SessionLibrary)
    (state : List (TypeId × SessionType) × Builder) (type : SessionType) :
    registerType (hideLibrary scope library).library (hideOffered scope state)
        (hideMembers scope type) =
      hideOffered scope (registerType library.library state type) := by
  simp only [registerType, hideOffered, ensure_eq_of_describe (describe_hideMembers type),
    List.map_append, List.map_singleton]
  rfl

private theorem registerLibrary_hide (state : List (TypeId × SessionType) × Builder)
    (library : SessionLibrary) :
    registerLibrary scope.hide (hideOffered scope state) (hideLibrary scope library) =
      hideOffered scope (registerLibrary scope state library) := by
  rw [registerLibrary, offered_hide, List.foldl_map]
  exact List.foldl_hom (hideOffered scope) (registerType_hide library)

private theorem register_hide : register scope.hide = hideOffered scope (register scope) := by
  have hlibraries : scope.hide.session.libraries =
      scope.session.libraries.map (hideLibrary scope) := rfl
  rw [register, register, hlibraries, List.foldl_map]
  change List.foldl _ (hideOffered scope ([], {})) _ = _
  exact List.foldl_hom (hideOffered scope) registerLibrary_hide

private theorem knowAlike_hide (name : String) : KnowAlike scope scope.hide name := by
  rw [KnowAlike, type?_hide, Option.map_map]
  rfl

/-- If the access by name is that to the library of a type, all types are counterparts of those
without what is not seen. -/
theorem counterpart_hide
    (h : ∀ type ∈ scope.session.types, scope.accessOf type.library = scope.homeAccess type) :
    Counterpart scope scope.hide (hideMembers scope) where
  settings := rfl
  described type _ := describe_hideMembers type
  base? type _ := by
    cases hbase : type.decl.baseType with
    | none => simp [Scope.base?, hideMembers, TypeDecl.withoutHidden, hbase]
    | some base => simp [Scope.base?, hideMembers, TypeDecl.withoutHidden, hbase, type?_hide]
  members type htype := by
    have hagree : Agree scope scope.hide := ⟨rfl, fun name _ => knowAlike_hide name⟩
    have hreads : ReadsAlike scope scope.hide (hideMembers scope type) :=
      ⟨accessOf_hide _, fun _ _ name _ => knowAlike_hide name⟩
    exact (gathersAlike_hideMembers (h type htype)).trans (hreads.gathersAlike hagree)
  registered := register_hide
  statics name _ := by
    rw [type?_hide, Option.map_map]
    refine Option.map_congr fun type _ => ?_
    exact staticNames_withoutHidden type.decl
  embedded := by
    funext graph
    rw [addEmbedded, addEmbedded, Scope.hide, List.foldl_map]
    rfl
  addresses := by
    rw [Scope.hide, List.flatMap_map]
    rfl

/-- The part of a library that the target of a session sees. -/
def Scope.seenPart (scope : Scope) (library : Library) : Library :=
  library.withoutHidden (Access.toLibrary library scope.session.target scope.targetIdentity)

private theorem hide_withTarget (settings : Settings) (target : Option String)
    (libraries : List Library) (files : Files.Tree) :
    let scope : Scope := ⟨settings, Session.withTarget target libraries files⟩
    scope.hide =
      ⟨settings, Session.withTarget target (libraries.map scope.seenPart) files⟩ := by
  intro scope
  have hlibraries : scope.session.libraries.map (hideLibrary scope) =
      (Session.withTarget target (libraries.map scope.seenPart) files).libraries := by
    apply List.ext_getElem?
    intro place
    rw [List.getElem?_map, Session.libraries_getElem?, Session.libraries_getElem?,
      List.getElem?_map, Option.map_map, Option.map_map]
    refine Option.map_congr fun library hlibrary => ?_
    have hheld : scope.session.libraries[place]? =
        some (SessionLibrary.ofLibrary place library) := by
      rw [Session.libraries_getElem?, hlibrary, Option.map_some]
    have htypes : (SessionLibrary.ofLibrary place library).types.map (hideMembers scope) =
        (SessionLibrary.ofLibrary place (scope.seenPart library)).types := by
      apply List.ext_getElem?
      intro index
      simp only [SessionLibrary.ofLibrary, Scope.seenPart, Library.withoutHidden,
        List.getElem?_map, List.getElem?_mapIdx, Option.map_map]
      refine Option.map_congr fun decl _ => ?_
      simp only [Function.comp_apply, hideMembers, Scope.homeAccess, SessionType.handle,
        SessionLibrary.ofDecl, hheld]
      rfl
    simp only [Function.comp_apply, hideLibrary, htypes]
    rfl
  rw [Scope.hide, hlibraries]
  rfl

/-- What the target does not see of the libraries of a session makes no difference to its graph. -/
theorem convert_withoutHidden (settings : Settings) (target : Option String)
    (libraries : List Library) (files : Files.Tree)
    (hnames : (libraries.map Library.name).Nodup) :
    let scope : Scope := ⟨settings, Session.withTarget target libraries files⟩
    convert settings (Session.withTarget target (libraries.map scope.seenPart) files) =
      convert settings (Session.withTarget target libraries files) := by
  intro scope
  have hcounterpart : Counterpart scope scope.hide (hideMembers scope) :=
    counterpart_hide fun _ htype => accessOf_eq_homeAccess hnames htype
  have hconvert := hcounterpart.convert_eq
  rw [hide_withTarget] at hconvert
  exact hconvert

/-- A vault with members of every kind that the target does not see, on a box with an internal
lid. -/
def vaultLibraries : List Library :=
  [{ name := "App"
     types :=
      [{ namespaceName := "App", name := "Vault", baseType := some "Lib.Box"
         properties :=
          [{ name := "Door", typeName := "Lib.Box", getter := some .sameLibrary
             setter := some .nowhere },
           { name := "Code", typeName := "System.Nullable<Lib.Box>", isStatic := true
             getter := some .derived }]
         fields :=
          [{ name := "KeyProperty", typeName := "Avalonia.AttachedProperty<Lib.Box>"
             isStatic := true, visibility := .nowhere }]
         methods :=
          [{ name := "GetKey", isStatic := true, visibility := .nowhere, parameters := [{}] },
           { name := "ProvideValue", visibility := .nowhere, parameters := [{}] }]
         constructors :=
          [{ visibility := .sameLibrary, parameters := [{ typeName := "System.Type" }] }]
         events :=
          [{ name := "Opened", handlerType := "System.EventHandler", visibility := .derived }] }] },
   { name := "Lib"
     types :=
      [{ namespaceName := "Lib", name := "Box"
         properties :=
          [{ name := "Lid", typeName := "App.Vault", getter := some .sameLibrary }] }] }]

theorem convert_withoutHidden_vault :
    let session := Session.withTarget (some "App") vaultLibraries {}
    let seen := vaultLibraries.map (Scope.seenPart ⟨{}, session⟩)
    (vaultLibraries.map Library.name).Nodup ∧
      (seen.flatMap Library.types).map (fun type =>
        (type.properties.map fun property => (property.getter, property.setter),
          type.fields.length, type.methods.length, type.constructors.length,
          type.events.length)) =
        [([(some .sameLibrary, none), (none, none)], 0, 1, 0, 0), ([(none, none)], 0, 0, 0, 0)] ∧
      convert {} (Session.withTarget (some "App") seen {}) = convert {} session := by
  have hnames : (vaultLibraries.map Library.name).Nodup := by decide +kernel
  exact ⟨hnames, by decide +kernel, convert_withoutHidden {} (some "App") vaultLibraries {} hnames⟩

end XamlAssist.Conversion
