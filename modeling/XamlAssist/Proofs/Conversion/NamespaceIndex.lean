import XamlAssist.Proofs.Conversion.Arrangement
import XamlAssist.Proofs.Conversion.Reachability
import XamlAssist.Proofs.Session
import XamlAssist.Proofs.TypeGraph.NamespaceIndex

/-!
# The namespaces of the types of a conversion

A conversion registers types three times: all offered ones by their names, then extensions by their
short names, and at last the binding extensions by their aliases. What the graph keeps for full
names is always up to date (`namespaceIndex_current`). It may lack a namespace if several offered
types have one full name, but not for the names in `mem_namespacesOf_of_lookup?_convert`.
-/

namespace XamlAssist.Conversion

open TypeGraph Library

variable {scope : Scope} {builder next : Builder} {graph : TypeGraph} {id : TypeId}
  {permitted : TypeGraph → String → String → TypeId → Prop}
  {offered : List (TypeId × SessionType)}

/-! ### Changes -/

private theorem foldl_register_changes {name : String} (hid : id < graph.types.length)
    (hpermitted : ∀ current : TypeGraph, current.types = graph.types →
      ∀ space, permitted current space name id) (spaces : List String) :
    ChangesBy permitted graph
      (spaces.foldl (fun graph space => graph.register space name id) graph) := by
  induction spaces generalizing graph with
  | nil => exact .refl
  | cons space spaces ih =>
      have hfirst : ChangeBy permitted graph (graph.register space name id) :=
        .register hid (hpermitted graph rfl space)
      exact .head hfirst (@ih (graph.register space name id) hid hpermitted)

private theorem ensure_changes (hindexed : builder.graph.Indexed) (type : SessionType) :
    ChangesBy permitted builder.graph (builder.ensure type).2.graph := by
  have hnames := names_ensure_cases hindexed type
  rcases ensure_cases builder type with ⟨other, -, heq⟩ |
    ⟨-, other, label, hlabel, -, -, heq⟩ | ⟨-, -, heq⟩
  · rw [heq]
  · have hlt := (List.getElem?_eq_some_iff.mp hlabel).1
    rw [labels_length] at hlt
    rw [heq] at hnames ⊢
    rcases hnames with hsame | ⟨hlast, -⟩
    · refine .single (.replace rfl rfl ?_)
      rw [fullNames_eq_names, fullNames_eq_names, hsame]
    · exact absurd hlast hlt.ne
  · rw [heq]
    exact .single (.add _)

theorem Grows.changes (h : Grows scope builder next) (hindexed : builder.graph.Indexed) :
    ChangesBy permitted builder.graph next.graph := by
  induction h with
  | refl => exact .refl
  | tail hfirst hlast ih =>
      have hmiddle := (Grows.continues hfirst hindexed).indexed
      cases hlast with
      | remember entry => exact ih
      | @add node _ => exact ih.tail (.add node)
      | @ensure type _ => exact ih.trans (ensure_changes hmiddle type)

theorem KeepsSpaces.change {hinted : TypeGraph} (h : KeepsSpaces graph hinted) :
    ChangeBy permitted graph hinted := by
  refine .replace h.namespaces h.reachable ?_
  rw [fullNames_eq_names, fullNames_eq_names, names, h.labels]
  rfl

/-- An offered type is registered by its name. -/
def ByName (offered : List (TypeId × SessionType)) (_ : TypeGraph) (_ name : String)
    (id : TypeId) : Prop :=
  ∃ type, (id, type) ∈ offered ∧ type.decl.name = name

/-- An offered extension is registered by its short name, which is free. -/
def ByShortName (offered : List (TypeId × SessionType)) (graph : TypeGraph) (space name : String)
    (id : TypeId) : Prop :=
  graph.lookup? space name = none ∧
    ∃ type, (id, type) ∈ offered ∧ properStem? "Extension" type.decl.name = some name

/-- A binding extension is registered by its alias. -/
def ByAlias (offered : List (TypeId × SessionType)) (graph : TypeGraph) (_ name : String)
    (id : TypeId) : Prop :=
  MayReach offered id ∧ (graph.fullNameOf id, name) ∈ Known.bindingAliases

private theorem seed_changes : Changes {} TypeGraph.seed := by
  have hplain : Changes {} (Seed.plainTypes.foldl TypeGraph.add {}) :=
    List.foldlRecOn _ _ .refl fun graph h node _ => h.tail (.add node)
  have hadd {graph : TypeGraph} (h : Changes {} graph) (name : String) (node : Node) :
      Changes {} (Seed.addToDirectives graph name node) := by
    refine (h.tail (.add node)).tail (.register ?_ trivial)
    rw [TypeGraph.add, List.length_append]
    exact Nat.lt_succ_self _
  unfold TypeGraph.seed
  refine List.foldlRecOn _ _ (List.foldlRecOn _ _ hplain ?_) ?_
  · exact fun graph h entry _ => hadd h _ _
  · exact fun graph h entry _ => hadd h _ _

/-- The graph of the offered types so far comes from the seed by registering them. -/
structure Traced (state : List (TypeId × SessionType) × Builder) : Prop where
  introduced : Introduced state
  changes : ChangesBy (ByName state.1) TypeGraph.seed state.2.graph

theorem Traced.registerType {state : List (TypeId × SessionType) × Builder} (h : Traced state)
    (library : Library) (type : SessionType) : Traced (registerType library state type) where
  introduced := h.introduced.registerType library type
  changes := by
    have hmet := ensure_succeeds h.introduced.inRange.bounded type
    have hid := hmet.inRange.numbers _ List.mem_cons_self
    have hbefore : ChangesBy (ByName (state.1 ++ [((state.2.ensure type).1, type)]))
        TypeGraph.seed state.2.graph :=
      h.changes.mono fun _ _ _ _ hbyName =>
        hbyName.imp fun _ hother => hother.imp_left (List.mem_append_left _)
    refine (hbefore.trans (ensure_changes h.introduced.indexed type)).trans ?_
    rw [graph_registerType]
    exact foldl_register_changes hid (fun _ _ _ => ⟨type, by simp, rfl⟩) _

private theorem register_changes (scope : Scope) :
    ChangesBy (ByName (register scope).1) TypeGraph.seed (register scope).2.graph := by
  refine Traced.changes (List.foldlRecOn _ _ ⟨introduced_seed, .refl⟩ ?_)
  intro state hstate library _
  exact List.foldlRecOn _ _ hstate fun state hstate type _ =>
    hstate.registerType library.library type

private theorem registerShortName_changes (hid : id < builder.graph.types.length)
    {type : SessionType} (hpair : (id, type) ∈ offered) :
    ChangesBy (ByShortName offered) builder.graph (registerShortName type id builder).graph := by
  unfold registerShortName
  cases hshort : properStem? "Extension" type.decl.name with
  | none => exact .refl
  | some short =>
      refine (List.foldlRecOn
        (motive := fun current : Builder => id < current.graph.types.length ∧
          ChangesBy (ByShortName offered) builder.graph current.graph)
        _ _ ⟨hid, .refl⟩ fun current hcurrent space _ => ?_).2
      unfold registerIfFree
      cases hfree : current.graph.lookup? space short with
      | some other => exact hcurrent
      | none =>
          have hregister : ChangeBy (ByShortName offered) current.graph
              (current.graph.register space short id) :=
            .register hcurrent.1 ⟨hfree, type, hpair, hshort⟩
          exact ⟨hcurrent.1, hcurrent.2.tail hregister⟩

private theorem harvest_changes {type : SessionType} (htype : type ∈ scope.session.types)
    (hindexed : builder.graph.Indexed) (hid : id < builder.graph.types.length)
    (hpair : (id, type) ∈ offered) :
    ChangesBy (ByShortName offered) builder.graph (harvest scope builder (id, type)).graph := by
  obtain ⟨grown, gathered, argument, hchained, hgrown, -, -, heq⟩ :=
    harvest_shape builder id htype
  have hgrows : ChangesBy (ByShortName offered) builder.graph grown.graph :=
    (Requests.grows (hchained.trans hgrown)).changes hindexed
  have hmembers : ChangeBy (ByShortName offered) grown.graph
      (grown.graph.modify id (setMembers gathered argument)) :=
    KeepsSpaces.change ⟨rfl, rfl, labels_modify_same grown.graph id fun _ => rfl, rfl⟩
  have hset : ChangesBy (ByShortName offered) builder.graph
      (grown.mapGraph (·.modify id (setMembers gathered argument))).graph := hgrows.tail hmembers
  rw [heq]
  dsimp only
  split
  · exact hset.trans
      (registerShortName_changes (Nat.lt_of_lt_of_le hid hset.changes.length_le) hpair)
  · exact hset

private theorem harvested_changes (settings : Settings) (session : Session) :
    ChangesBy (ByShortName (register ⟨settings, session⟩).1) (register ⟨settings, session⟩).2.graph
      (harvested settings session).graph := by
  have hregistered := registered_register ⟨settings, session⟩
  have hintroduced := introduced_register ⟨settings, session⟩
  refine (List.foldlRecOn
    (motive := fun builder : Builder => builder.graph.Indexed ∧
      ChangesBy (ByShortName (register ⟨settings, session⟩).1)
        (register ⟨settings, session⟩).2.graph builder.graph)
    _ _ ⟨hintroduced.indexed, .refl⟩ ?_).2
  rintro builder ⟨hindexed, hbuilder⟩ pair hpair
  have htype := hregistered.mem_types pair hpair
  have hid := Nat.lt_of_lt_of_le (hintroduced.inRange.numbers pair.1 (List.mem_map_of_mem hpair))
    hbuilder.changes.length_le
  exact ⟨(harvest_continues hindexed pair.1 htype).indexed,
    hbuilder.trans (harvest_changes htype hindexed hid hpair)⟩

private theorem registerAlias_changes {names : String × String}
    (hnames : names ∈ Known.bindingAliases) (hindexed : builder.graph.Indexed)
    (hreach : ∀ id, builder.graph.find? names.1 = some id →
      builder.graph.namespacesOf names.1 ≠ [] → MayReach offered id) :
    ChangesBy (ByAlias offered) builder.graph (registerAlias builder names).graph := by
  unfold registerAlias
  cases hfind : builder.graph.find? names.1 with
  | none => exact .refl
  | some id =>
      obtain ⟨node, hnode, -, hname⟩ := hindexed.exists_node hfind
      dsimp only
      rw [graph_foldl_register]
      by_cases hspaces : builder.graph.namespacesOf names.1 = []
      · rw [hspaces]
        exact .refl
      · refine foldl_register_changes (lt_of_get? hnode) (fun current htypes space => ?_) _
        have hcurrent : current.get? id = some node := by
          rw [get?, htypes]
          exact hnode
        have hfull : current.fullNameOf id = names.1 := (fullNameOf_of_get? hcurrent).trans hname
        exact ⟨hreach id hfind hspaces, hfull ▸ hnames⟩

private theorem complete_changes (settings : Settings) (session : Session) :
    ChangesBy (ByAlias (register ⟨settings, session⟩).1) (harvested settings session).graph
      (convert settings session) := by
  have hseed := Run.continues (registered_register ⟨settings, session⟩).run indexed_seed
  have hintroduced := introduced_register ⟨settings, session⟩
  obtain ⟨hinted, hkeeps, heq⟩ := complete_shape ⟨settings, session⟩
    ((register ⟨settings, session⟩).1.map Prod.fst) (harvested settings session)
  have hreaches := (harvested_reaches settings session).congr hkeeps.namespaces hkeeps.reachable
    hkeeps.labels
  rw [convert_eq_complete, heq]
  refine (List.foldlRecOn
    (motive := fun builder : Builder =>
      ChangesBy (ByAlias (register ⟨settings, session⟩).1) (harvested settings session).graph
        builder.graph ∧
      Reaches (MayReach (register ⟨settings, session⟩).1) builder.graph ∧
      Continues (register ⟨settings, session⟩).2.graph builder.graph)
    _ _ ⟨.single hkeeps.change, hreaches, hinted_continues hkeeps⟩ ?_).1
  rintro builder ⟨hchanges, hreaches, hlater⟩ names hmem
  have hplain := not_mem_seedNames_of_bindingAlias names hmem
  refine ⟨hchanges.trans (registerAlias_changes hmem hlater.indexed fun id hfind hspaces => ?_),
    ?_, ?_⟩
  · exact hintroduced.mayReach_of_find? hseed hlater hreaches hplain hspaces hfind
  · exact hintroduced.registerAlias hseed hlater hreaches hplain
  · exact hlater.trans ((registerAlias_annotates builder names).annotates.continues hlater.indexed)

private theorem convert_changes (settings : Settings) (session : Session) :
    Changes TypeGraph.seed (convert settings session) :=
  ((register_changes _).changes.trans (harvested_changes settings session).changes).trans
    (complete_changes settings session).changes

/-! ### What is kept is up to date -/

/-- Whatever is done to a graph, each namespace that it keeps for a full name has a type of that
name, and the preferred one is the best of them that was registered first. So it is with the graph
of every session. -/
theorem namespaceIndex_current :
    (∀ graph earlier, History (graph :: earlier) → Current (graph :: earlier) graph) ∧
      ∀ settings session, ∃ earlier, History (convert settings session :: earlier) ∧
        Current (convert settings session :: earlier) (convert settings session) := by
  refine ⟨fun graph earlier h => h.current, fun settings session => ?_⟩
  obtain ⟨earlier, hhistory⟩ := exists_history
    (seed_changes.trans (convert_changes settings session))
  exact ⟨earlier, hhistory, hhistory.current⟩

/-- Two types with one name, the first of which has two namespaces until the second takes its name
in one of them. -/
def takenName : TypeGraph :=
  let first : TypeGraph := ({} : TypeGraph).add (Node.ofNames "Button" "A.Button")
  let both := first.add (Node.ofNames "Button" "B.Button")
  ((both.register "using:A" "Button" 0).register "urn:a" "Button" 0).register "using:A" "Button" 1

theorem namespaceIndex_current_takenName :
    takenName.namespacesOf "A.Button" = ["urn:a"] ∧
      takenName.namespacesOf "B.Button" = ["using:A"] ∧
      ∃ earlier, History (takenName :: earlier) ∧ Current (takenName :: earlier) takenName := by
  have hboth := (History.start.change (.add (Node.ofNames "Button" "A.Button"))).change
    (.add (Node.ofNames "Button" "B.Button"))
  have hhistory := ((hboth.change (@ChangeBy.register _ _ "using:A" "Button" 0 (by decide) trivial)
    ).change (@ChangeBy.register _ _ "urn:a" "Button" 0 (by decide) trivial)).change
      (@ChangeBy.register _ _ "using:A" "Button" 1 (by decide) trivial)
  exact ⟨by decide +kernel, by decide +kernel, _, hhistory,
    namespaceIndex_current.1 takenName _ hhistory⟩

/-! ### No namespace is missing -/

private theorem fullNameOf_offered {settings : Settings} {session : Session}
    (hhandles : Scope.HandlesDiffer ⟨settings, session⟩) {pair : TypeId × SessionType}
    (hpair : pair ∈ (register ⟨settings, session⟩).1) :
    (convert settings session).fullNameOf pair.1 = pair.2.fullName := by
  have hregistered := registered_register ⟨settings, session⟩
  have hanchored := (Run.extends hregistered.run (anchored_seed _) hhandles).2
  have hlater : Changes (register ⟨settings, session⟩).2.graph (convert settings session) :=
    (harvested_changes settings session).changes.trans (complete_changes settings session).changes
  obtain ⟨label, hlabel, -, hname, -⟩ := hanchored.met pair.2
    (hregistered.mem_types pair hpair) pair.1 (hregistered.lookup pair hpair)
  rw [labels_getElem?, Option.map_eq_some_iff] at hlabel
  obtain ⟨node, hnode, rfl⟩ := hlabel
  rw [hlater.fullNameOf_eq (lt_of_get? hnode), fullNameOf_of_get? hnode]
  exact hname

private theorem exists_offered {settings : Settings} {session : Session}
    (hhandles : Scope.HandlesDiffer ⟨settings, session⟩)
    (hreach : MayReach (register ⟨settings, session⟩).1 id)
    (hplain : (convert settings session).fullNameOf id ∉ seedNames) :
    ∃ type, (id, type) ∈ (register ⟨settings, session⟩).1 ∧
      type ∈ Scope.allOffered ⟨settings, session⟩ ∧
      type.fullName = (convert settings session).fullNameOf id := by
  rcases hreach with hdirective | hoffered
  · obtain ⟨node, hnode, -⟩ := exists_of_isDirectiveId hdirective
    rw [(convert_changes settings session).fullNameOf_eq (lt_of_get? hnode),
      fullNameOf_of_get? hnode] at hplain
    exact absurd (List.mem_map_of_mem (List.mem_of_getElem? hnode)) hplain
  · obtain ⟨pair, hpair, rfl⟩ := List.mem_map.mp hoffered
    have htypes := (registered_register ⟨settings, session⟩).types_eq
    exact ⟨pair.2, hpair, htypes ▸ List.mem_map_of_mem hpair,
      (fullNameOf_offered hhandles hpair).symm⟩

variable {fullName : String} {mayName wider : String → TypeId → Prop}

private theorem keepsNamespaces_seed
    (h : ∀ {space name : String} {id : TypeId}, TypeGraph.seed.lookup? space name = some id →
      TypeGraph.seed.fullNameOf id = fullName → mayName name id) :
    KeepsNamespaces fullName mayName TypeGraph.seed where
  tidy := by
    obtain ⟨earlier, hhistory⟩ := exists_history seed_changes
    exact hhistory.fresh.tidy
  lt := fun hid => reaches_seed.lt (reaches_seed.lookup? hid)
  mayName := h
  mem := by
    intro space name id hid hname
    have hall : TypeGraph.seed.namespaces.entries.all fun space =>
        space.2.entries.all fun entry =>
          (TypeGraph.seed.namespacesOf (TypeGraph.seed.fullNameOf entry.2)).contains space.1 := by
      decide +kernel
    obtain ⟨names, hnames, hentry⟩ := Option.bind_eq_some_iff.mp hid
    have hspace := List.all_eq_true.mp hall _ (OrderedMap.mem_entries_of_get? hnames)
    have hkept := List.all_eq_true.mp hspace _ (OrderedMap.mem_entries_of_get? hentry)
    rw [← hname]
    exact List.contains_iff_mem.mp hkept

/-- The index is complete for a full name if the registrations of all three kinds are harmless. -/
theorem keepsNamespaces_convert (settings : Settings) (session : Session)
    (hseed : ∀ {space name : String} {id : TypeId}, TypeGraph.seed.lookup? space name = some id →
      TypeGraph.seed.fullNameOf id = fullName → mayName name id)
    (hwider : ∀ name id, mayName name id → wider name id)
    (hname : ∀ {graph : TypeGraph} {space name : String} {id : TypeId},
      Changes graph (convert settings session) → id < graph.types.length →
        ByName (register ⟨settings, session⟩).1 graph space name id →
          Harmless fullName mayName graph space name id)
    (hlater : ∀ {graph : TypeGraph} {space name : String} {id : TypeId},
      Changes graph (convert settings session) → id < graph.types.length →
        ByShortName (register ⟨settings, session⟩).1 graph space name id ∨
          ByAlias (register ⟨settings, session⟩).1 graph space name id →
            Harmless fullName wider graph space name id) :
    KeepsNamespaces fullName wider (convert settings session) := by
  have hharvested := harvested_changes settings session
  have hcompleted := complete_changes settings session
  have hregistered := (keepsNamespaces_seed hseed).changes hname (register_changes _)
    (hharvested.changes.trans hcompleted.changes)
  have hshort := (hregistered.weaken hwider).changes
    (fun hchanges hid h => hlater hchanges hid (.inl h)) hharvested hcompleted.changes
  exact hshort.changes (fun hchanges hid h => hlater hchanges hid (.inr h)) hcompleted .refl

private theorem keepsNamespaces_of_single (settings : Settings) (session : Session)
    (hsingle : ∀ a b, MayReach (register ⟨settings, session⟩).1 a →
      MayReach (register ⟨settings, session⟩).1 b →
        (convert settings session).fullNameOf a = fullName →
          (convert settings session).fullNameOf b = fullName → a = b) :
    KeepsNamespaces fullName
      (fun _ id => MayReach (register ⟨settings, session⟩).1 id ∧
        (convert settings session).fullNameOf id = fullName)
      (convert settings session) := by
  have hharmless {graph : TypeGraph} {space name : String} {id : TypeId}
      (hchanges : Changes graph (convert settings session)) (hid : id < graph.types.length)
      (hreach : MayReach (register ⟨settings, session⟩).1 id) :
      Harmless fullName
        (fun _ id => MayReach (register ⟨settings, session⟩).1 id ∧
          (convert settings session).fullNameOf id = fullName) graph space name id :=
    ⟨fun hname => ⟨hreach, (hchanges.fullNameOf_eq hid).trans hname⟩,
      fun _ _ _ hprevious _ _ hother =>
        .inr (hsingle _ _ hother.1 hprevious.1 hother.2 hprevious.2)⟩
  refine keepsNamespaces_convert settings session ?_ (fun _ _ h => h) ?_ ?_
  · intro space name id hid hname
    have hreach := reaches_seed.lookup? hid
    rw [← (convert_changes settings session).fullNameOf_eq (reaches_seed.lt hreach)] at hname
    exact ⟨hreach.imp_right fun hmem => absurd hmem List.not_mem_nil, hname⟩
  · rintro graph space name id hchanges hid ⟨type, hpair, -⟩
    exact hharmless hchanges hid (.inr (List.mem_map_of_mem hpair))
  · rintro graph space name id hchanges hid (⟨-, type, hpair, -⟩ | ⟨hreach, -⟩)
    · exact hharmless hchanges hid (.inr (List.mem_map_of_mem hpair))
    · exact hharmless hchanges hid hreach

private theorem eq_of_seeded (settings : Settings) (session : Session)
    (hseeded : fullName ∈ seedNames)
    {a b : TypeId} (ha : MayReach (register ⟨settings, session⟩).1 a)
    (hb : MayReach (register ⟨settings, session⟩).1 b)
    (haName : (convert settings session).fullNameOf a = fullName)
    (hbName : (convert settings session).fullNameOf b = fullName) : a = b := by
  obtain ⟨final, hrun, hfinal⟩ := run_convert settings session
  have harranged := arranged_seed.run hrun
  have hfind {id : TypeId} (hreach : MayReach (register ⟨settings, session⟩).1 id)
      (hname : (convert settings session).fullNameOf id = fullName) :
      TypeGraph.seed.find? fullName = some id := by
    have hlt := (convert_reaches settings session).lt hreach
    rw [← hfinal] at hlt hname
    have hnode : final.graph.get? id = some final.graph.types[id] := List.getElem?_eq_getElem hlt
    have hlabel : final.graph.labels[id]? = some final.graph.types[id].label := by
      rw [labels_getElem?, hnode, Option.map_some]
    have hfull : final.graph.types[id].label.fullName = fullName :=
      (fullNameOf_of_get? hnode).symm.trans hname
    have hfound := harranged.find?_seed_of_fullName hlabel (hfull ▸ hseeded)
    rwa [hfull] at hfound
  exact Option.some.inj ((hfind ha haName).symm.trans (hfind hb hbName))

private theorem bindingAliases_apart :
    ∀ first ∈ Known.bindingAliases, properStem? "Extension" first.2 = none ∧
      ∀ second ∈ Known.bindingAliases, (first.2 = second.2 → first.1 = second.1) ∧
        ¬ first.2.toList <:+ second.1.toList := by
  decide +kernel

/-- What types of a full name and a simple name may be called in markup. -/
def MayBeCalled (fullName simple name : String) : Prop :=
  name = simple ∨ properStem? "Extension" simple = some name ∨
    (fullName, name) ∈ Known.bindingAliases

/-- If all types of a full name have one simple name, and its stem is no alias of a binding, the
types may take names from each other but no other type takes one of several. -/
theorem keepsNamespaces_of_sameName (settings : Settings) (session : Session) {simple : String}
    (hplain : fullName ∉ seedNames) (hends : simple.toList <:+ fullName.toList)
    (hsimple : ∀ id type, (id, type) ∈ (register ⟨settings, session⟩).1 →
      (convert settings session).fullNameOf id = fullName → type.decl.name = simple)
    (hstem : ∀ names ∈ Known.bindingAliases, properStem? "Extension" simple ≠ some names.2) :
    KeepsNamespaces fullName (fun name _ => MayBeCalled fullName simple name)
      (convert settings session) := by
  refine @keepsNamespaces_convert _ (fun name _ => name = simple) _ settings session ?_
    (fun _ _ h => .inl h) ?_ ?_
  · intro space name id hid hname
    have hlt := reaches_seed.lt (reaches_seed.lookup? hid)
    rw [fullNameOf_of_get? (List.getElem?_eq_getElem hlt)] at hname
    exact absurd (hname ▸ List.mem_map_of_mem (List.getElem_mem hlt)) hplain
  · rintro graph space name id hchanges hid ⟨type, hpair, rfl⟩
    refine ⟨fun hname => ?_, fun _ _ _ hprevious _ _ hother => .inl (hother.trans hprevious.symm)⟩
    exact hsimple id type hpair ((hchanges.fullNameOf_eq hid).trans hname)
  · rintro graph space name id hchanges hid (⟨hfree, type, hpair, hshort⟩ | ⟨-, halias⟩)
    · constructor
      · intro hname
        obtain rfl := hsimple id type hpair ((hchanges.fullNameOf_eq hid).trans hname)
        exact .inr (.inl hshort)
      · intro _ previous hprevious
        exact absurd (hfree.symm.trans hprevious) (by simp)
    · obtain ⟨hnoStem, hapart⟩ := bindingAliases_apart _ halias
      refine ⟨fun hname => .inr (.inr (hname ▸ halias)), ?_⟩
      intro hother previous _ hcalled called _ hall
      rcases hcalled with rfl | hcalled | hcalled
      · rcases hall with rfl | hall | hall
        · exact .inl rfl
        · exact absurd (hnoStem.symm.trans hall) (by simp)
        · exact absurd hends (hapart _ hall).2
      · exact absurd hcalled (hstem _ halias)
      · exact absurd ((hapart _ hcalled).1 rfl) hother

/-- The offered types with a full name do not get into each other's way: the name is one of the
seed, or one type alone has it, or all have one simple name, the stem of which is no alias of a
binding. -/
inductive Unambiguous (scope : Scope) (fullName : String) : Prop
  | seeded : fullName ∈ seedNames → Unambiguous scope fullName
  | single : (∀ a ∈ scope.allOffered, ∀ b ∈ scope.allOffered, a.fullName = fullName →
      b.fullName = fullName → a = b) → Unambiguous scope fullName
  | sameName (simple : String) :
      (∀ type ∈ scope.allOffered, type.fullName = fullName → type.decl.name = simple) →
      (∀ names ∈ Known.bindingAliases, properStem? "Extension" simple ≠ some names.2) →
      Unambiguous scope fullName

private theorem name_suffix_fullName (type : SessionType) :
    type.decl.name.toList <:+ type.fullName.toList := by
  rw [SessionType.fullName, type.fullName_eq, TypeDecl.fullName]
  split
  · exact List.suffix_refl _
  · rw [String.toList_append]
    exact List.suffix_append _ _

private theorem Unambiguous.exists_keepsNamespaces {settings : Settings} {session : Session}
    (hhandles : Scope.HandlesDiffer ⟨settings, session⟩)
    (h : Unambiguous ⟨settings, session⟩ fullName) :
    ∃ mayName, KeepsNamespaces fullName mayName (convert settings session) := by
  have hregistered := registered_register ⟨settings, session⟩
  by_cases hseeded : fullName ∈ seedNames
  · exact ⟨_, keepsNamespaces_of_single settings session fun _ _ =>
      eq_of_seeded settings session hseeded⟩
  have hoffered {id : TypeId} (hreach : MayReach (register ⟨settings, session⟩).1 id)
      (hname : (convert settings session).fullNameOf id = fullName) :=
    exists_offered hhandles hreach (hname ▸ hseeded)
  cases h with
  | seeded h => exact absurd h hseeded
  | single h =>
      refine ⟨_, keepsNamespaces_of_single settings session fun a b ha hb haName hbName => ?_⟩
      obtain ⟨type, htype, hmem, hname⟩ := hoffered ha haName
      obtain ⟨other, hother, hotherMem, hotherName⟩ := hoffered hb hbName
      obtain rfl := h type hmem other hotherMem (hname.trans haName) (hotherName.trans hbName)
      exact Option.some.inj
        ((hregistered.lookup _ htype).symm.trans (hregistered.lookup _ hother))
  | sameName simple hsimple hstem =>
      by_cases hany : ∃ type ∈ Scope.allOffered ⟨settings, session⟩, type.fullName = fullName
      · obtain ⟨type, hmem, hname⟩ := hany
        have hends : simple.toList <:+ fullName.toList := by
          rw [← hsimple type hmem hname, ← hname]
          exact name_suffix_fullName type
        refine ⟨_, keepsNamespaces_of_sameName settings session hseeded hends ?_ hstem⟩
        intro id other hpair hother
        have hmemOther : other ∈ Scope.allOffered ⟨settings, session⟩ :=
          hregistered.types_eq ▸ List.mem_map_of_mem hpair
        exact hsimple other hmemOther ((fullNameOf_offered hhandles hpair).symm.trans hother)
      · refine ⟨_, keepsNamespaces_of_single settings session fun a _ ha _ haName _ => ?_⟩
        obtain ⟨type, -, hmem, hname⟩ := hoffered ha haName
        exact absurd ⟨type, hmem, hname.trans haName⟩ hany

/-- A type that a name stands for in a namespace has that namespace, unless several offered types
have its full name and an alias of a binding could come between them. -/
theorem mem_namespacesOf_of_lookup?_convert (settings : Settings) (target : Option String)
    (libraries : List Library) (files : Files.Tree) {space name : String} {id : TypeId}
    {node : Node}
    (hid : (convert settings (.withTarget target libraries files)).lookup? space name = some id)
    (hnode : (convert settings (.withTarget target libraries files)).get? id = some node)
    (hname : Unambiguous ⟨settings, .withTarget target libraries files⟩ node.fullName) :
    space ∈ (convert settings (.withTarget target libraries files)).namespacesOf node.fullName := by
  have hhandles : Scope.HandlesDiffer ⟨settings, .withTarget target libraries files⟩ :=
    fun _ ha _ hb => Session.eq_of_handle_eq ha hb
  obtain ⟨mayName, hkeeps⟩ := hname.exists_keepsNamespaces hhandles
  exact hkeeps.mem hid (fullNameOf_of_get? hnode)

/-- An extension that can be written by its short name. -/
def extensionDecl (name : String) : TypeDecl :=
  { namespaceName := "Avalonia.Markup.Xaml.MarkupExtensions"
    name
    methods :=
      [{ name := "ProvideValue", parameters := [{ typeName := "System.IServiceProvider" }] }] }

/-- Two libraries that both have the extension, the first of them with a binding extension too. -/
def twiceDeclared (name : String) : List Library :=
  [{ name := "Core", types := [extensionDecl name, extensionDecl "ReflectionBindingExtension"] },
   { name := "Extra", types := [extensionDecl name] }]

theorem mem_namespacesOf_of_lookup?_convert_twiceDeclared :
    let graph := convert {} (.withTarget (some "Extra") (twiceDeclared "StyleExtension") {})
    let space := "using:Avalonia.Markup.Xaml.MarkupExtensions"
    graph.lookup? space "StyleExtension" = some 26 ∧ graph.lookup? space "Style" = some 24 ∧
      graph.fullNameOf 24 = graph.fullNameOf 26 ∧
      ∃ node, graph.get? 26 = some node ∧ space ∈ graph.namespacesOf node.fullName := by
  intro graph space
  obtain ⟨hlookup, hshort, hsame, hsome, hfull⟩ :
      graph.lookup? space "StyleExtension" = some 26 ∧ graph.lookup? space "Style" = some 24 ∧
        graph.fullNameOf 24 = graph.fullNameOf 26 ∧ (graph.get? 26).isSome = true ∧
        graph.fullNameOf 26 = "Avalonia.Markup.Xaml.MarkupExtensions.StyleExtension" := by
    decide +kernel
  obtain ⟨node, hnode⟩ := Option.isSome_iff_exists.mp hsome
  have hsimple : (Scope.allOffered
      ⟨{}, .withTarget (some "Extra") (twiceDeclared "StyleExtension") {}⟩).all fun type =>
        type.fullName = "Avalonia.Markup.Xaml.MarkupExtensions.StyleExtension" →
          type.decl.name = "StyleExtension" := by decide +kernel
  refine ⟨hlookup, hshort, hsame, node, hnode, ?_⟩
  refine mem_namespacesOf_of_lookup?_convert {} (some "Extra") (twiceDeclared "StyleExtension") {}
    hlookup hnode (.sameName "StyleExtension" (fun type htype hname => ?_) (by decide +kernel))
  have hdeclared := hname.trans ((fullNameOf_of_get? hnode).symm.trans hfull)
  exact of_decide_eq_true (List.all_eq_true.mp hsimple type htype) hdeclared

/-- A binding that is declared twice can lose a namespace that it is still reachable through: the
first declaration has the short name there and the second one the long name, and the alias of
another binding takes the short name. -/
theorem not_mem_namespacesOf_binding :
    let graph := convert {} (.withTarget (some "Extra") (twiceDeclared "BindingExtension") {})
    let space := "using:Avalonia.Markup.Xaml.MarkupExtensions"
    graph.lookup? space "BindingExtension" = some 26 ∧
      graph.fullNameOf 26 = "Avalonia.Markup.Xaml.MarkupExtensions.BindingExtension" ∧
      space ∉ graph.namespacesOf "Avalonia.Markup.Xaml.MarkupExtensions.BindingExtension" := by
  decide +kernel

end XamlAssist.Conversion
