import XamlAssist.Proofs.Conversion.Inherited
import XamlAssist.Proofs.Conversion.Run

/-!
# Facts about the members of converted types

What is true of the members of a type when they are set stays true while the other types are
converted, as long as it does not depend on the types of properties, which are set again later.
Main statement: `convert_holdsAt`.
-/

namespace XamlAssist.Conversion

open TypeGraph Library

variable {scope : Scope} {builder next : Builder}

/-! ### What annotations leave -/

/-- What is shown of a type, apart from the types of its properties. -/
def memberView (node : Node) : Option Handle × List TypeGraph.Property × List TypeGraph.Event :=
  (node.handle, node.properties.map ({ · with type := none }), node.events)

private theorem Annotates.memberView_eq {graph after : TypeGraph} (h : Annotates graph after) :
    after.types.map memberView = graph.types.map memberView := by
  refine h.map_eq (fun _ _ => rfl) fun node declaring => ?_
  have hproperties : (node.properties.map (retypeSource declaring)).map
      (fun property => { property with type := none }) =
        node.properties.map fun property => { property with type := none } := by
    rw [List.map_map]
    refine List.map_congr_left fun property _ => ?_
    show { retypeSource declaring property with type := none } = _
    unfold retypeSource
    split <;> rfl
  simp only [memberView, hproperties]

theorem forall₂_of_memberView_eq {α : Type} {R : α → TypeGraph.Property → Prop}
    {p : TypeGraph.Property → Bool}
    (hrel : ∀ declared shown, R declared { shown with type := none } ↔ R declared shown)
    (hfilter : ∀ shown : TypeGraph.Property, p { shown with type := none } = p shown)
    {declared : List α} {node other : Node} (hview : memberView other = memberView node)
    (h : List.Forall₂ R declared (node.properties.filter p)) :
    List.Forall₂ R declared (other.properties.filter p) := by
  have huntyped (properties : List TypeGraph.Property) :
      List.Forall₂ R declared ((properties.map ({ · with type := none })).filter p) ↔
        List.Forall₂ R declared (properties.filter p) := by
    rw [List.filter_map, List.forall₂_map_right_iff, Function.comp_def]
    simp only [hrel, hfilter]
  have hproperties : other.properties.map (fun shown => { shown with type := none }) =
      node.properties.map fun shown => { shown with type := none } :=
    congrArg (·.2.1) hview
  rw [← huntyped, hproperties, huntyped]
  exact h

/-! ### Facts -/

/-- What is true of the members of a type: of the numbers of types, the type, its own number, and
what the graph shows of it. -/
abbrev MemberFact : Type := (Handle → TypeId → Prop) → SessionType → TypeId → Node → Prop

/-- The members of a type as they are gathered: those of its chain of base types, and behind them
those that its fields stand for. -/
structure Gathers (scope : Scope) (builder : Builder) (id : TypeId) (type : SessionType)
    (gathered : Gathered) (grown : Builder) : Prop where
  chained : Requests scope builder
    ((scope.baseChain type).foldl (gatherType scope) ({}, builder)).2
  grown : Requests scope ((scope.baseChain type).foldl (gatherType scope) ({}, builder)).2 grown
  properties : ∃ start, gathered.properties =
    (type.decl.fields.foldl
      (gatherAttachedProperty scope (scope.accessOf type.library) type.decl id)
      (((scope.baseChain type).foldl (gatherType scope) ({}, builder)).1.properties, start)).1
  events : ∃ start, gathered.events =
    (type.decl.fields.foldl (gatherAttachedEvent scope (scope.accessOf type.library) id)
      (((scope.baseChain type).foldl (gatherType scope) ({}, builder)).1.events, start)).1

/-- The fact holds once the members are set, and neither more numbers nor other types of properties
make it false. -/
structure MemberFact.Stays (scope : Scope) (fact : MemberFact) : Prop where
  set : ∀ {builder grown : Builder} {id : TypeId} {type : SessionType} {gathered : Gathered}
    (argument : ConstructorArgument) (node : Node), type ∈ scope.session.types →
    Gathers scope builder id type gathered grown →
      fact grown.Numbers type id (setMembers gathered argument node)
  mono : ∀ {number after : Handle → TypeId → Prop} {type : SessionType} {id : TypeId} {node : Node},
    (∀ handle other, number handle other → after handle other) →
      fact number type id node → fact after type id node
  of_view : ∀ {number : Handle → TypeId → Prop} {type : SessionType} {id : TypeId}
    {node other : Node}, memberView other = memberView node →
      fact number type id node → fact number type id other

/-- The fact holds of the type of the session with the given number. -/
def MemberFact.HoldsAt (fact : MemberFact) (builder : Builder) (id : TypeId)
    (type : SessionType) : Prop :=
  ∃ node, builder.graph.get? id = some node ∧ node.handle = some type.handle ∧
    fact builder.Numbers type id node

namespace MemberFact.HoldsAt

variable {fact : MemberFact} {id other : TypeId} {type owner : SessionType}

theorem annotates (hfact : fact.Stays scope) (h : fact.HoldsAt builder id type)
    {graph : TypeGraph} (hgraph : Annotates builder.graph graph) :
    fact.HoldsAt { builder with graph } id type := by
  obtain ⟨node, hnode, hhandle, hholds⟩ := h
  obtain ⟨other, hother, hview⟩ := exists_get?_of_map_eq hgraph.memberView_eq hnode
  exact ⟨other, hother, (congrArg Prod.fst hview).trans hhandle, hfact.of_view hview hholds⟩

private theorem requests (h : fact.HoldsAt builder id type) (hfact : fact.Stays scope)
    (hidentified : Identified scope builder) (hdistinct : Distinct scope)
    (hrequests : Requests scope builder next) : fact.HoldsAt next id type := by
  obtain ⟨node, hnode, hhandle, hholds⟩ := h
  exact ⟨node, hrequests.grows.get? hidentified hdistinct hnode hhandle, hhandle,
    hfact.mono (fun _ _ => hrequests.grows.lookup) hholds⟩

theorem modify (h : fact.HoldsAt builder id type) (hne : other ≠ id) (change : Node → Node) :
    fact.HoldsAt (builder.mapGraph (·.modify other change)) id type := by
  obtain ⟨node, hnode, hhandle, hholds⟩ := h
  refine ⟨node, ?_, hhandle, hholds⟩
  show (builder.graph.modify other change).get? id = some node
  rw [get?_modify, hnode, Option.map_some, if_neg hne]

end MemberFact.HoldsAt

/-! ### Conversion of one type -/

private theorem harvest_gathers (builder : Builder) (id : TypeId) {type : SessionType}
    (htype : type ∈ scope.session.types) :
    ∃ grown gathered argument graph, Gathers scope builder id type gathered grown ∧
      Annotates (grown.graph.modify id (setMembers gathered argument)) graph ∧
      harvest scope builder (id, type) = { grown with graph } := by
  obtain ⟨grown, gathered, argument, graph, hchained, hgrown, hproperties, hevents, hgraph, heq⟩ :=
    harvest_spec builder id htype
  exact ⟨grown, gathered, argument, graph, ⟨hchained, hgrown, ⟨_, hproperties⟩, ⟨_, hevents⟩⟩,
    hgraph, heq⟩

variable {fact : MemberFact} {id other : TypeId} {type owner : SessionType}

private theorem harvest_holdsAt (hfact : fact.Stays scope) (hdistinct : Distinct scope)
    (hidentified : Identified scope builder) (htype : type ∈ scope.session.types)
    (hid : builder.ids.lookup type.handle = some id) :
    fact.HoldsAt (harvest scope builder (id, type)) id type := by
  obtain ⟨grown, gathered, argument, graph, hgathers, hgraph, heq⟩ :=
    harvest_gathers builder id htype
  have hrequests : Requests scope builder grown := hgathers.chained.trans hgathers.grown
  obtain ⟨label, hlabel, hhandle⟩ :=
    (hidentified.grows hdistinct hrequests.grows).label_of_id (hrequests.grows.lookup hid)
  rw [labels_getElem?] at hlabel
  obtain ⟨node, hnode, rfl⟩ := Option.map_eq_some_iff.mp hlabel
  have hholds := hfact.set argument node htype hgathers
  have hset : fact.HoldsAt (grown.mapGraph (·.modify id (setMembers gathered argument)))
      id type := by
    refine ⟨setMembers gathered argument node, ?_, hhandle, hholds⟩
    show (grown.graph.modify id (setMembers gathered argument)).get? id = _
    rw [get?_modify, hnode, Option.map_some, if_pos rfl]
  rw [heq]
  exact hset.annotates hfact hgraph

theorem MemberFact.HoldsAt.harvest (h : fact.HoldsAt builder id type) (hfact : fact.Stays scope)
    (hdistinct : Distinct scope) (hidentified : Identified scope builder)
    (htype : type ∈ scope.session.types) (howner : owner ∈ scope.session.types)
    (hid : builder.ids.lookup owner.handle = some other) :
    fact.HoldsAt (Conversion.harvest scope builder (other, owner)) id type := by
  by_cases hne : other = id
  · subst hne
    obtain ⟨node, hnode, hhandle, -⟩ := h
    have hlabel : builder.graph.labels[other]? = some node.label := by
      rw [labels_getElem?, hnode, Option.map_some]
    obtain ⟨label, hother, hsome⟩ := hidentified.label_of_id hid
    obtain rfl := Option.some.inj (hlabel.symm.trans hother)
    have hsame : owner.handle = type.handle := Option.some.inj (hsome.symm.trans hhandle)
    obtain rfl := hdistinct.handles owner howner type htype hsame
    exact harvest_holdsAt hfact hdistinct hidentified howner hid
  · obtain ⟨grown, gathered, argument, graph, hgathers, hgraph, heq⟩ :=
      harvest_gathers builder other howner
    have hset := (h.requests hfact hidentified hdistinct
      (hgathers.chained.trans hgathers.grown)).modify hne (setMembers gathered argument)
    rw [heq]
    exact hset.annotates hfact hgraph

/-! ### Conversion of all types -/

theorem Identified.step (h : Identified scope builder) (hdistinct : Distinct scope)
    (hstep : Step scope builder next) : Identified scope next := by
  rcases hstep.labels with hrequest | ⟨hlabels, hids, -⟩
  · exact h.grows hdistinct (Requests.grows (.single hrequest))
  · exact h.congr hlabels (hstep.continues h.indexed).indexed hids

theorem Identified.run (h : Identified scope builder) (hdistinct : Distinct scope)
    (hrun : Run scope builder next) : Identified scope next := by
  induction hrun with
  | refl => exact h
  | tail _ hlast ih => exact ih.step hdistinct hlast

private theorem MemberFact.HoldsAt.foldl_harvest (h : fact.HoldsAt builder id type)
    (hfact : fact.Stays scope) (hdistinct : Distinct scope) (hidentified : Identified scope builder)
    (htype : type ∈ scope.session.types) {offered : List (TypeId × SessionType)}
    (htypes : ∀ pair ∈ offered, pair.2 ∈ scope.session.types)
    (hlookup : ∀ pair ∈ offered, builder.ids.lookup pair.2.handle = some pair.1) :
    fact.HoldsAt (offered.foldl (Conversion.harvest scope) builder) id type := by
  induction offered generalizing builder with
  | nil => exact h
  | cons pair offered ih =>
      have howner := htypes pair List.mem_cons_self
      have hid := hlookup pair List.mem_cons_self
      have hrun := harvest_run howner hid
      have hnext := h.harvest hfact hdistinct hidentified htype howner hid
      refine ih hnext (hidentified.run hdistinct hrun)
        (fun other hmem => htypes other (List.mem_cons_of_mem pair hmem)) ?_
      exact fun other hmem => Run.lookup hrun (hlookup other (List.mem_cons_of_mem pair hmem))

theorem foldl_harvest_holdsAt (hfact : fact.Stays scope) (hdistinct : Distinct scope)
    (hidentified : Identified scope builder) {offered : List (TypeId × SessionType)}
    (htypes : ∀ pair ∈ offered, pair.2 ∈ scope.session.types)
    (hlookup : ∀ pair ∈ offered, builder.ids.lookup pair.2.handle = some pair.1) :
    ∀ pair ∈ offered, fact.HoldsAt (offered.foldl (harvest scope) builder) pair.1 pair.2 := by
  induction offered generalizing builder with
  | nil => exact fun _ h => absurd h (by simp)
  | cons first offered ih =>
      have howner := htypes first List.mem_cons_self
      have hid := hlookup first List.mem_cons_self
      have hrun := harvest_run howner hid
      have hnext := hidentified.run hdistinct hrun
      have htypesRest : ∀ pair ∈ offered, pair.2 ∈ scope.session.types :=
        fun pair hmem => htypes pair (List.mem_cons_of_mem first hmem)
      have hlookupRest : ∀ pair ∈ offered,
          (harvest scope builder first).ids.lookup pair.2.handle = some pair.1 :=
        fun pair hmem => Run.lookup hrun (hlookup pair (List.mem_cons_of_mem first hmem))
      intro pair hpair
      rcases List.mem_cons.mp hpair with rfl | hpair
      · have hholds := harvest_holdsAt hfact hdistinct hidentified howner hid
        exact hholds.foldl_harvest hfact hdistinct hnext howner htypesRest hlookupRest
      · exact ih hnext htypesRest hlookupRest pair hpair

/-- At the end of a conversion the fact holds of every offered type. -/
theorem convert_holdsAt (hfact : fact.Stays scope) (hdistinct : Distinct scope)
    (htype : type ∈ scope.allOffered) :
    ∃ final id, final.graph = convert scope.settings scope.session ∧ Identified scope final ∧
      final.ids.lookup type.handle = some id ∧ fact.HoldsAt final id type := by
  have hregistered := registered_register scope
  have hidentified := (identified_seed scope).run hdistinct hregistered.run
  rw [← hregistered.types_eq] at htype
  obtain ⟨⟨id, type⟩, hpair, rfl⟩ := List.mem_map.mp htype
  have hharvest := foldl_harvest_run hregistered.mem_types hregistered.lookup
  obtain ⟨graph, hcomplete, heq⟩ := complete_annotates scope ((register scope).1.map Prod.fst)
    ((register scope).1.foldl (harvest scope) (register scope).2)
  have hholds := foldl_harvest_holdsAt hfact hdistinct hidentified hregistered.mem_types
    hregistered.lookup (id, type) hpair
  exact ⟨_, id, congrArg Builder.graph heq.symm,
    (hidentified.run hdistinct hharvest).run hdistinct hcomplete.run,
    Run.lookup hharvest (hregistered.lookup (id, type) hpair), hholds.annotates hfact hcomplete⟩

end XamlAssist.Conversion
