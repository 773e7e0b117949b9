import XamlAssist.Proofs.Conversion.Completion
import XamlAssist.Proofs.Conversion.Instances
import XamlAssist.Proofs.Session

/-!
# The members of instances of collections

An instance of a collection gets the members that its generic type has when the instance is made:
all of them if they were gathered before, and none otherwise. Main statement:
`members_collection_convert`.
-/

namespace XamlAssist.Conversion

open TypeGraph

def members (node : Node) : List TypeGraph.Property × List TypeGraph.Event :=
  (node.properties, node.events)

/-- A type that was made for a reference to a collection, with its generic type. -/
structure IsCollectionOf (node : Node) (definition : TypeId) : Prop where
  isInstance : IsInstance node
  isCollection : ∃ generic, GenericName.ofString? node.fullName = some generic ∧
    GenericName.isCollection generic.definition = true
  definition_eq : node.definition = some definition

/-- Where it is known for which types the members are set, and which instances were made later than
that: those instances have the members, and the others have none. -/
structure Carries (isSet : TypeId → Prop) (isLater : TypeId → TypeId → Prop) (graph : TypeGraph) :
    Prop where
  unset : ∀ {id : TypeId} {node : Node}, graph.get? id = some node → node.handle.isSome = true →
    TypeGraph.seed.types.length ≤ id → ¬ isSet id → members node = ([], [])
  instances : ∀ {id definition : TypeId} {node : Node}, graph.get? id = some node →
    IsCollectionOf node definition →
      ∃ original, graph.get? definition = some original ∧
        TypeGraph.seed.types.length ≤ definition ∧
        (isLater definition id → members node = members original) ∧
        (¬ isLater definition id → members node = ([], []))

variable {scope : Scope} {builder next : Builder} {graph : TypeGraph}
  {isSet : TypeId → Prop} {isLater : TypeId → TypeId → Prop}

theorem Carries.congr {other : TypeGraph} (h : Carries isSet isLater graph)
    (htypes : other.types = graph.types) : Carries isSet isLater other := by
  have hget : other.get? = graph.get? := by
    funext id
    rw [get?, htypes, get?]
  constructor
  · rw [hget]
    exact h.unset
  · rw [hget]
    exact h.instances

private theorem carries_register (scope : Scope) :
    Carries isSet isLater (register scope).2.graph where
  unset := by
    intro id node hnode _ _ _
    have hunfilled := unfilled_register scope node (List.mem_of_getElem? hnode)
    rw [members, hunfilled.properties, hunfilled.events]
  instances := fun hnode hinstance =>
    absurd hinstance.isInstance (not_isInstance_register hnode)

/-! ### Making instances -/

private theorem collection_not_seeded {name : String} (h : GenericName.isCollection name = true) :
    name ∉ seedNames ∧ GenericName.ofString? name = none ∧
      name ≠ GenericName.nullableDefinition := by
  have hall : GenericName.collectionDefinitions.all fun name =>
      name ∉ seedNames ∧ GenericName.ofString? name = none ∧
        name ≠ GenericName.nullableDefinition := by decide +kernel
  exact of_decide_eq_true (List.all_eq_true.mp hall name (List.contains_iff_mem.mp h))

private theorem Arranged.collection (h : Arranged builder) {id : TypeId} {node : Node}
    (hnode : builder.graph.get? id = some node)
    (hname : GenericName.isCollection node.fullName = true) :
    TypeGraph.seed.types.length ≤ id ∧ node.handle.isSome = true := by
  obtain ⟨hseeded, hplain, -⟩ := collection_not_seeded hname
  have hlabel : builder.graph.labels[id]? = some node.label := by
    rw [labels_getElem?, hnode, Option.map_some]
  have hle : TypeGraph.seed.types.length ≤ id := by
    by_contra hlt
    have hsmall := Nat.not_le.mp hlt
    have hfull := h.continues.fullNameOf_eq hsmall
    rw [fullNameOf_of_get? hnode, fullNameOf_of_get? (List.getElem?_eq_getElem hsmall)] at hfull
    exact hseeded (hfull ▸ List.mem_map_of_mem (List.getElem_mem hsmall))
  refine ⟨hle, ?_⟩
  rcases (h.outside hlabel hle).origin with hhandle | hgeneric
  · exact hhandle
  · rw [show node.label.fullName = node.fullName from rfl, hplain] at hgeneric
    exact Bool.noConfusion hgeneric

private theorem instanceNode_of_collection {generic : GenericName}
    (h : GenericName.isCollection generic.definition = true) (name : String)
    (definition argument : Option TypeId) :
    Builder.instanceNode graph name generic definition argument =
      Builder.collectionNode graph name generic definition argument :=
  if_neg (collection_not_seeded h).2.2

private theorem members_collectionNode (graph : TypeGraph) (name : String) (generic : GenericName)
    (definition : TypeId) (argument : Option TypeId) :
    members (Builder.collectionNode graph name generic (some definition) argument) =
      members ((graph.get? definition).getD {}) := by
  simp only [members, Builder.collectionNode, Option.bind_some]

private theorem members_listedIf (isComplete : Bool) (node : Node) :
    members (listedIf isComplete node) = members node := by
  simp only [members, listedIf]

theorem Carries.make (h : Carries isSet isLater builder.graph) (harranged : Arranged builder)
    (hset : ∀ definition, isSet definition → isLater definition builder.graph.types.length)
    (hmake : Make scope builder next) : Carries isSet isLater next.graph := by
  constructor
  · intro id node hnode hhandle hid hnot
    cases hmake.origin harranged hnode with
    | kept hold => exact h.unset hold hhandle hid hnot
    | takenOver _ hlt => exact absurd hlt (Nat.not_lt.mpr hid)
    | described type => rfl
    | @created name generic definition argument isComplete hname _ _ =>
        have hinstance := instanceNode_isInstance builder.graph hname definition argument
        rw [listedIf, hinstance.handle] at hhandle
        exact Bool.noConfusion hhandle
  · intro id definition node hnode hinstance
    have hisInstance := hinstance.isInstance
    cases hmake.origin harranged hnode with
    | kept hold =>
        obtain ⟨original, horiginal, hle, hmembers⟩ := h.instances hold hinstance
        exact ⟨original, hmake.get?_outside harranged hle horiginal, hle, hmembers⟩
    | takenOver => exact Bool.noConfusion hisInstance.isBuiltin
    | described type => exact absurd hisInstance.handle (by simp [describe])
    | @created name generic found argument isComplete hname hfound _ =>
        obtain ⟨other, hother, hcollection⟩ := hinstance.isCollection
        rw [listedIf, fullName_instanceNode] at hother
        obtain rfl := Option.some.inj (hname.symm.trans hother)
        have hdefinition := hinstance.definition_eq
        rw [listedIf, instanceNode_of_collection hcollection] at hdefinition
        obtain rfl : found = some definition := hdefinition
        obtain ⟨hlt, hfull⟩ := hfound definition rfl
        have horiginal : builder.graph.get? definition = some builder.graph.types[definition] :=
          List.getElem?_eq_getElem hlt
        rw [fullNameOf_of_get? horiginal] at hfull
        obtain ⟨hle, hhandle⟩ := harranged.collection horiginal (hfull ▸ hcollection)
        have hmembers : members (listedIf isComplete (Builder.instanceNode builder.graph name
            generic (some definition) argument)) = members builder.graph.types[definition] := by
          rw [members_listedIf, instanceNode_of_collection hcollection, members_collectionNode,
            horiginal, Option.getD_some]
        refine ⟨_, hmake.get?_outside harranged hle horiginal, hle, fun _ => hmembers, ?_⟩
        intro hnot
        refine hmembers.trans (h.unset horiginal hhandle hle fun his => ?_)
        exact hnot (hset definition his)

theorem Carries.makes (h : Carries isSet isLater builder.graph) (harranged : Arranged builder)
    (hset : ∀ definition id, isSet definition → builder.graph.types.length ≤ id →
      isLater definition id)
    (hmakes : Makes scope builder next) : Carries isSet isLater next.graph := by
  induction hmakes with
  | refl => exact h
  | tail hfirst hlast ih =>
      refine ih.make (harranged.grows (Makes.grows hfirst)) (fun definition his => ?_) hlast
      exact hset definition _ his (Makes.length_le hfirst harranged)

/-! ### Setting members -/

/-- The members of a type are set, which no instance was made of since they were set before. -/
theorem Carries.setMembers (h : Carries isSet isLater graph) {id : TypeId}
    (hhandle : ∀ node, graph.get? id = some node → node.handle.isSome = true)
    (hnew : TypeGraph.seed.types.length ≤ id → ∀ other, ¬ isLater id other)
    {isSetNow : TypeId → Prop} (hset : ∀ other, isSet other ∨ other = id → isSetNow other)
    {isLaterNow : TypeId → TypeId → Prop}
    (hlater : ∀ definition other, other < graph.types.length →
      (isLaterNow definition other ↔ isLater definition other))
    (gathered : Gathered) (argument : ConstructorArgument) :
    Carries isSetNow isLaterNow (graph.modify id (setMembers gathered argument)) := by
  constructor
  · intro other node hnode hsome hle hnot
    rw [get?_modify, Option.map_eq_some_iff] at hnode
    obtain ⟨before, hbefore, rfl⟩ := hnode
    have hne : id ≠ other := fun heq => hnot (hset other (.inr heq.symm))
    rw [if_neg hne] at hsome ⊢
    exact h.unset hbefore hsome hle fun his => hnot (hset other (.inl his))
  · intro other definition node hnode hinstance
    rw [get?_modify, Option.map_eq_some_iff] at hnode
    obtain ⟨before, hbefore, rfl⟩ := hnode
    have hne : id ≠ other := by
      rintro rfl
      have hnone := hinstance.isInstance.handle
      rw [if_pos rfl] at hnone
      have hsome := hhandle before hbefore
      rw [show before.handle = none from hnone] at hsome
      exact Bool.noConfusion hsome
    rw [if_neg hne] at hinstance ⊢
    obtain ⟨original, horiginal, hle, hcarried, hempty⟩ := h.instances hbefore hinstance
    have hiff := hlater definition other (lt_of_get? hbefore)
    by_cases heq : id = definition
    · subst heq
      have hnot := hnew hle other
      refine ⟨Conversion.setMembers gathered argument original, ?_, hle,
        fun hnow => absurd (hiff.mp hnow) hnot, fun _ => hempty hnot⟩
      rw [get?_modify, horiginal, Option.map_some, if_pos rfl]
    · refine ⟨original, ?_, hle, fun hnow => hcarried (hiff.mp hnow),
        fun hnot => hempty fun hold => hnot (hiff.mpr hold)⟩
      rw [get?_modify, horiginal, Option.map_some, if_neg heq]

/-! ### All offered types -/

/-- The members of a type are among those that were gathered for so many offered types. -/
def IsGathered (scope : Scope) (count : Nat) (id : TypeId) : Prop :=
  ∃ place type, place < count ∧ (register scope).1[place]? = some (id, type)

/-- The members of the generic type were gathered for one of so many offered types, before there
was a type with the number of the instance. -/
def IsGatheredBefore (scope : Scope) (count : Nat) (definition id : TypeId) : Prop :=
  ∃ place type, place < count ∧ (register scope).1[place]? = some (definition, type) ∧
    (harvestedUpTo scope (place + 1)).graph.types.length ≤ id

private theorem carries_harvestedUpTo (hhandles : scope.HandlesDiffer)
    (hnodup : scope.session.types.Nodup) {count : Nat}
    (hcount : count ≤ (register scope).1.length) :
    Carries (IsGathered scope count) (IsGatheredBefore scope count)
      (harvestedUpTo scope count).graph := by
  induction count with
  | zero =>
      rw [harvestedUpTo_zero]
      exact carries_register scope
  | succ count ih =>
      have hpair : (register scope).1[count]? = some (register scope).1[count] :=
        List.getElem?_eq_getElem hcount
      generalize (register scope).1[count] = pair at hpair
      obtain ⟨grown, gathered, argument, hmakes, htypes⟩ := exists_makes hhandles hpair
      have hready := ready_harvestedUpTo hhandles count
      have hset : ∀ definition id, IsGathered scope count definition →
          (harvestedUpTo scope count).graph.types.length ≤ id →
            IsGatheredBefore scope count definition id := by
        rintro definition id ⟨place, type, hlt, hplace⟩ hle
        exact ⟨place, type, hlt, hplace, (length_harvestedUpTo_mono scope hlt).trans hle⟩
      have hgrown := (ih (Nat.le_of_succ_le hcount)).makes hready.arranged hset hmakes
      have hlength : (harvestedUpTo scope (count + 1)).graph.types.length =
          grown.graph.types.length := by
        rw [htypes, length_types_modify]
      refine Carries.congr (hgrown.setMembers ?_ ?_ ?_ ?_ gathered argument) htypes
      · intro node hnode
        have hmem := List.mem_of_getElem? hpair
        have hgrows := Makes.grows hmakes
        obtain ⟨label, hlabel, -, -, hsome⟩ := (hready.anchored.grows hhandles hgrows).met pair.2
          ((registered_register scope).mem_types pair hmem) pair.1
          (hgrows.lookup (lookup_harvestedUpTo hmem count))
        rw [labels_getElem?, hnode] at hlabel
        obtain rfl := Option.some.inj hlabel
        exact hsome
      · rintro hle other ⟨place, type, hlt, hplace, -⟩
        exact hlt.ne (place_eq_of_offered hhandles hnodup hle hplace hpair)
      · rintro other (⟨place, type, hlt, hplace⟩ | rfl)
        · exact ⟨place, type, Nat.lt_succ_of_lt hlt, hplace⟩
        · exact ⟨count, pair.2, Nat.lt_succ_self count, hpair⟩
      · intro definition other hother
        constructor
        · rintro ⟨place, type, hlt, hplace, hle⟩
          rcases Nat.lt_succ_iff_lt_or_eq.mp hlt with hlt | rfl
          · exact ⟨place, type, hlt, hplace, hle⟩
          · rw [hlength] at hle
            exact absurd hother (Nat.not_lt.mpr hle)
        · rintro ⟨place, type, hlt, hplace, hle⟩
          exact ⟨place, type, Nat.lt_succ_of_lt hlt, hplace, hle⟩

/-- The members of a generic type were gathered before there was a type with the number of the
instance. -/
def GatheredBefore (scope : Scope) (definition id : TypeId) : Prop :=
  IsGatheredBefore scope (register scope).1.length definition id

private theorem IsCollectionOf.of_completed {entries : List (TypeId × List String)}
    {declaring : List TypeId} {id definition : TypeId} {node : Node}
    (h : IsCollectionOf (completed entries declaring id node) definition) :
    IsCollectionOf node definition :=
  ⟨h.isInstance.congr rfl, h.isCollection, h.definition_eq⟩

private theorem members_completed (entries : List (TypeId × List String)) (declaring : List TypeId)
    (id : TypeId) (node : Node) :
    members (completed entries declaring id node) =
      ((members node).1.map (retypeSource declaring), (members node).2) := by
  simp only [members, completed]

/-- An instance of a collection has the members of its generic type if and only if they were
gathered before the instance was made or there are none. Otherwise it has no members. -/
theorem members_collection_convert (settings : Settings) (target : Option String)
    (libraries : List Library) (files : Files.Tree) {id definition : TypeId} {node : Node}
    (hnode : (convert settings (.withTarget target libraries files)).get? id = some node)
    (hinstance : IsCollectionOf node definition) :
    ∃ original,
      (convert settings (.withTarget target libraries files)).get? definition = some original ∧
      (members node = members original ↔
        GatheredBefore ⟨settings, .withTarget target libraries files⟩ definition id ∨
          members original = ([], [])) ∧
      (¬ GatheredBefore ⟨settings, .withTarget target libraries files⟩ definition id →
        members node = ([], [])) := by
  have hhandles : Scope.HandlesDiffer ⟨settings, .withTarget target libraries files⟩ :=
    fun _ ha _ hb => Session.eq_of_handle_eq ha hb
  have hcarries := carries_harvestedUpTo hhandles Session.nodup_types (Nat.le_refl _)
  rw [harvestedUpTo_length] at hcarries
  rw [get?_convert, Option.map_eq_some_iff] at hnode
  obtain ⟨before, hbefore, rfl⟩ := hnode
  obtain ⟨original, horiginal, -, hcarried, hempty⟩ :=
    hcarries.instances hbefore hinstance.of_completed
  refine ⟨_, by rw [get?_convert, horiginal, Option.map_some], ?_⟩
  rw [members_completed, members_completed]
  by_cases hgathered : GatheredBefore ⟨settings, .withTarget target libraries files⟩ definition id
  · rw [hcarried hgathered]
    exact ⟨iff_of_true rfl (.inl hgathered), fun hnot => absurd hgathered hnot⟩
  · rw [hempty hgathered]
    exact ⟨⟨fun heq => .inr heq.symm, fun hor => (hor.resolve_left hgathered).symm⟩, fun _ => rfl⟩

/-! ### The order of declarations -/

/-- A type with a collection of its own kind. -/
def panelDecl : Library.TypeDecl :=
  { namespaceName := "App"
    name := "Panel"
    properties :=
      [{ name := "Children", typeName := "Avalonia.Collections.AvaloniaList`1<App.Panel>"
         getter := some .everywhere }] }

/-- A generic type of collections. -/
def listDecl : Library.TypeDecl :=
  { namespaceName := "Avalonia.Collections"
    name := "AvaloniaList`1"
    properties := [{ name := "Count", typeName := "System.Int32", getter := some .everywhere }]
    events := [{ name := "Cleared", handlerType := "System.EventHandler" }] }

/-- The session of a library with the given types. -/
def sessionOf (types : List Library.TypeDecl) : Session :=
  .withTarget (some "App") [{ name := "App", types }] {}

theorem members_collection_convert_listFirst :
    ∃ node original, (convert {} (sessionOf [listDecl, panelDecl])).get? 26 = some node ∧
      IsCollectionOf node 24 ∧
      (convert {} (sessionOf [listDecl, panelDecl])).get? 24 = some original ∧
      members node = members original ∧ node.properties.map Property.name = ["Count"] := by
  obtain ⟨hfields, hproperties⟩ : ((convert {} (sessionOf [listDecl, panelDecl])).get? 26).map
        (fun node => (node.handle, node.isBuiltin, node.fullName, node.definition)) =
          some (none, false, "Avalonia.Collections.AvaloniaList`1<App.Panel>", some 24) ∧
      ((convert {} (sessionOf [listDecl, panelDecl])).get? 26).map
        (fun node => node.properties.map Property.name) = some ["Count"] := by
    decide +kernel
  have hname : GenericName.ofString? "Avalonia.Collections.AvaloniaList`1<App.Panel>" =
      some ⟨"Avalonia.Collections.AvaloniaList`1", ["App.Panel"]⟩ := by decide +kernel
  obtain ⟨node, hnode, hmade, hfull, hdefinition⟩ :=
    exists_isInstance (Option.isSome_of_eq_some hname) hfields
  have hinstance : IsCollectionOf node 24 :=
    ⟨hmade, ⟨_, hfull ▸ hname, by decide +kernel⟩, hdefinition⟩
  obtain ⟨original, horiginal, hiff, -⟩ := members_collection_convert {} (some "App")
    [{ name := "App", types := [listDecl, panelDecl] }] {} hnode hinstance
  have hgathered : GatheredBefore ⟨{}, sessionOf [listDecl, panelDecl]⟩ 24 26 := by
    obtain ⟨hfirst, hlt, hle⟩ : (register ⟨{}, sessionOf [listDecl, panelDecl]⟩).1[0]?.map
          Prod.fst = some 24 ∧ 0 < (register ⟨{}, sessionOf [listDecl, panelDecl]⟩).1.length ∧
        (harvestedUpTo ⟨{}, sessionOf [listDecl, panelDecl]⟩ (0 + 1)).graph.types.length ≤ 26 := by
      decide +kernel
    obtain ⟨⟨_, type⟩, hpair, rfl⟩ := Option.map_eq_some_iff.mp hfirst
    exact ⟨0, type, hlt, hpair, hle⟩
  refine ⟨node, original, hnode, hinstance, horiginal, hiff.mpr (.inl hgathered), ?_⟩
  rw [hnode, Option.map_some] at hproperties
  exact Option.some.inj hproperties

/-- A collection that a type before it refers to has members, and its instance has none. -/
theorem members_collection_panelFirst :
    (∃ node, (convert {} (sessionOf [panelDecl, listDecl])).get? 26 = some node ∧
        IsCollectionOf node 25) ∧
      ((convert {} (sessionOf [panelDecl, listDecl])).get? 26).map members = some ([], []) ∧
      ((convert {} (sessionOf [panelDecl, listDecl])).get? 25).map
        (fun node => (node.properties.map Property.name, node.events.map Event.name)) =
          some (["Count"], ["Cleared"]) := by
  have hname : GenericName.ofString? "Avalonia.Collections.AvaloniaList`1<App.Panel>" =
      some ⟨"Avalonia.Collections.AvaloniaList`1", ["App.Panel"]⟩ := by decide +kernel
  obtain ⟨hfields, hmembers⟩ : ((convert {} (sessionOf [panelDecl, listDecl])).get? 26).map
        (fun node => (node.handle, node.isBuiltin, node.fullName, node.definition)) =
          some (none, false, "Avalonia.Collections.AvaloniaList`1<App.Panel>", some 25) ∧
      ((convert {} (sessionOf [panelDecl, listDecl])).get? 26).map members = some ([], []) ∧
      ((convert {} (sessionOf [panelDecl, listDecl])).get? 25).map
        (fun node => (node.properties.map Property.name, node.events.map Event.name)) =
          some (["Count"], ["Cleared"]) := by
    decide +kernel
  obtain ⟨node, hnode, hmade, hfull, hdefinition⟩ :=
    exists_isInstance (Option.isSome_of_eq_some hname) hfields
  exact ⟨⟨node, hnode, hmade, ⟨_, hfull ▸ hname, by decide +kernel⟩, hdefinition⟩, hmembers⟩

end XamlAssist.Conversion
