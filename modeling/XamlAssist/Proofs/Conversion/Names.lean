import XamlAssist.Proofs.Conversion.Run

/-!
# What a name stands for during a run

A graph only gets longer, so a name that is found stands for the same type at every later point, and
a plain name that neither the graph nor the session knows is never found. Main statements:
`Run.extends` and `settled_resolvePlain`.
-/

namespace XamlAssist.Conversion

open TypeGraph

/-- What a later state has of an earlier one: what is found, where only names of instances or of the
session are found on top of that, and what the instances are made of. -/
structure Extends (scope : Scope) (builder next : Builder) : Prop where
  find?_some : ∀ {name : String} {id : TypeId}, builder.graph.find? name = some id →
    next.graph.find? name = some id
  found : ∀ {name : String} {id : TypeId}, next.graph.find? name = some id →
    builder.graph.find? name = some id ∨ (GenericName.ofString? name).isSome = true ∨
      ∃ type ∈ scope.session.types, type.fullName = name
  instances : ∀ {id : TypeId} {node : Node}, builder.graph.get? id = some node → IsInstance node →
    ∃ other, next.graph.get? id = some other ∧ IsInstance other ∧
      other.fullName = node.fullName ∧ other.underlying = node.underlying ∧
      other.items = node.items

variable {scope : Scope} {builder next last : Builder}

theorem Extends.refl (builder : Builder) : Extends scope builder builder :=
  ⟨fun h => h, .inl, fun hnode hinstance => ⟨_, hnode, hinstance, rfl, rfl, rfl⟩⟩

theorem Extends.trans (h : Extends scope builder next) (hlast : Extends scope next last) :
    Extends scope builder last := by
  constructor
  · exact fun hid => hlast.find?_some (h.find?_some hid)
  · intro name id hid
    rcases hlast.found hid with hid | hname
    · exact h.found hid
    · exact .inr hname
  · intro id node hnode hinstance
    obtain ⟨other, hother, hotherInstance, hname, hunderlying, hitems⟩ :=
      h.instances hnode hinstance
    obtain ⟨final, hfinal, hfinalInstance, hname', hunderlying', hitems'⟩ :=
      hlast.instances hother hotherInstance
    exact ⟨final, hfinal, hfinalInstance, hname'.trans hname, hunderlying'.trans hunderlying,
      hitems'.trans hitems⟩

theorem Extends.find?_eq (h : Extends scope builder next) {name : String}
    (hplain : GenericName.ofString? name = none) (hsession : scope.type? name = none) :
    next.graph.find? name = builder.graph.find? name := by
  cases hnext : next.graph.find? name with
  | none =>
      cases hid : builder.graph.find? name with
      | none => rfl
      | some id => exact absurd ((h.find?_some hid).symm.trans hnext) (by simp)
  | some id =>
      rcases h.found hnext with hid | hgeneric | ⟨type, htype, hfull⟩
      · exact hid.symm
      · simp [hplain] at hgeneric
      · exact absurd hfull (by simpa using List.find?_eq_none.mp hsession type htype)

/-! ### Growing -/

theorem find?_ensure_cases {builder : Builder} {type : SessionType} {name : String} {id : TypeId}
    (h : (builder.ensure type).2.graph.find? name = some id) :
    builder.graph.find? name = some id ∨ (type.fullName = name ∧ (builder.ensure type).1 = id) := by
  rcases ensure_cases builder type with ⟨other, -, heq⟩ | ⟨-, other, label, -, -, -, heq⟩ |
    ⟨-, -, heq⟩
  · rw [heq] at h
    exact .inl h
  · rw [heq] at h
    exact .inl h
  · rw [heq] at h ⊢
    exact (find?_add_cases h).imp_right fun hself => ⟨hself.2.1, hself.2.2.symm⟩

private theorem find?_ensure_of_some {name : String} {id : TypeId}
    (h : builder.graph.find? name = some id) (type : SessionType) :
    (builder.ensure type).2.graph.find? name = some id := by
  rcases ensure_cases builder type with ⟨other, -, heq⟩ | ⟨-, other, label, -, -, -, heq⟩ |
    ⟨-, -, heq⟩
  · rw [heq, h]
  · rw [heq]
    exact h
  · rw [heq]
    exact find?_add_of_some h _

theorem find?_ensure_of_ne (builder : Builder) {type : SessionType} {name : String}
    (h : type.fullName ≠ name) :
    (builder.ensure type).2.graph.find? name = builder.graph.find? name := by
  cases hid : (builder.ensure type).2.graph.find? name with
  | some id => exact ((find?_ensure_cases hid).resolve_right fun hself => h hself.1).symm
  | none =>
      cases hold : builder.graph.find? name with
      | none => rfl
      | some id => exact absurd ((find?_ensure_of_some hold type).symm.trans hid) (by simp)

theorem names_ensure_cases (h : builder.graph.Indexed) (type : SessionType) :
    (builder.ensure type).2.graph.names = builder.graph.names ∨
      ((builder.ensure type).1 = builder.graph.types.length ∧
        (builder.ensure type).2.graph.names =
          builder.graph.names ++ [(true, type.fullName)]) := by
  rcases ensure_cases builder type with ⟨id, -, heq⟩ |
    ⟨-, id, label, hlabel, hfind, -, heq⟩ | ⟨-, -, heq⟩
  · exact .inl (by rw [heq])
  · left
    obtain ⟨hlisted, hname⟩ := h.label hfind hlabel
    have hlt := (List.getElem?_eq_some_iff.mp hlabel).1
    rw [labels_length] at hlt
    rw [heq, names, names, labels_takeOver, List.map_set]
    apply List.ext_getElem?
    intro other
    rw [List.getElem?_set]
    split
    · next hid =>
        rw [List.getElem?_map, ← hid, hlabel]
        simp [hlt, metLabel, hlisted, hname]
    · rfl
  · right
    rw [heq]
    exact ⟨rfl, names_add builder.graph (describe type)⟩

theorem ensure_continues (h : builder.graph.Indexed) (type : SessionType) :
    Continues builder.graph (builder.ensure type).2.graph := by
  have hnames := names_ensure_cases h type
  rcases ensure_cases builder type with ⟨id, -, heq⟩ |
    ⟨-, id, label, hlabel, hfind, -, heq⟩ | ⟨-, -, heq⟩
  · rw [heq]
    exact h.continues rfl rfl
  · rw [heq] at hnames ⊢
    refine h.continues rfl (hnames.resolve_right fun hlast => ?_)
    have hlt := (List.getElem?_eq_some_iff.mp hlabel).1
    rw [labels_length] at hlt
    exact Nat.ne_of_lt hlt hlast.1
  · rw [heq]
    exact h.continues_add _

theorem instances_ensure (builder : Builder) (type : SessionType) :
    (builder.ensure type).2.instances = builder.instances := by
  rcases ensure_cases builder type with ⟨id, -, heq⟩ | ⟨-, id, label, -, -, -, heq⟩ |
    ⟨-, -, heq⟩ <;> rw [heq]

theorem Grow.extends (h : Grow scope builder next) : Extends scope builder next := by
  cases h with
  | remember entry => exact ⟨fun h => h, .inl, (@Extends.refl scope builder).instances⟩
  | @add node hnode =>
      refine ⟨fun hid => find?_add_of_some hid node, ?_, ?_⟩
      · intro name id hid
        rcases find?_add_cases hid with hid | ⟨-, rfl, -⟩
        · exact .inl hid
        · exact .inr (.inl hnode.name)
      · intro id other hother hinstance
        exact ⟨other, get?_add_of_some hother node, hinstance, rfl, rfl, rfl⟩
  | @ensure type htype =>
      refine ⟨fun hid => find?_ensure_of_some hid type, ?_, ?_⟩
      · intro name id hid
        rcases find?_ensure_cases hid with hid | ⟨hname, -⟩
        · exact .inl hid
        · exact .inr (.inr ⟨type, htype, hname⟩)
      intro id node hnode hinstance
      refine ⟨node, ?_, hinstance, rfl, rfl, rfl⟩
      rcases ensure_cases builder type with ⟨other, -, heq⟩ |
        ⟨-, other, label, hlabel, -, hbuiltin, heq⟩ | ⟨-, -, heq⟩
      · rw [heq, hnode]
      · have hne : other ≠ id := by
          rintro rfl
          rw [labels_getElem?, hnode] at hlabel
          obtain rfl := Option.some.inj hlabel
          exact Bool.noConfusion (hinstance.isBuiltin.symm.trans hbuiltin)
        rw [heq, get?_modify, hnode, Option.map_some, if_neg hne]
      · rw [heq]
        exact get?_add_of_some hnode _

theorem Grows.extends (h : Grows scope builder next) : Extends scope builder next := by
  induction h with
  | refl => exact .refl builder
  | tail _ hlast ih => exact ih.trans hlast.extends

theorem Grow.continues (h : Grow scope builder next) (hindexed : builder.graph.Indexed) :
    Continues builder.graph next.graph := by
  cases h with
  | remember entry => exact hindexed.continues rfl rfl
  | @add node hnode => exact hindexed.continues_add node
  | @ensure type htype => exact ensure_continues hindexed type

theorem Grows.continues (h : Grows scope builder next) (hindexed : builder.graph.Indexed) :
    Continues builder.graph next.graph := by
  induction h with
  | refl => exact hindexed.continues rfl rfl
  | tail _ hlast ih => exact ih.trans (hlast.continues ih.indexed)

theorem Grow.label (h : Grow scope builder next) (hindexed : builder.graph.Indexed) {id : TypeId}
    {label : Label} (hlabel : builder.graph.labels[id]? = some label) :
    ∃ other, next.graph.labels[id]? = some other ∧ other.isListed = label.isListed ∧
      other.fullName = label.fullName ∧ (label.handle.isSome → other.handle.isSome) := by
  have hlt := (List.getElem?_eq_some_iff.mp hlabel).1
  have hadd (node : Node) : (builder.graph.add node).labels[id]? = some label := by
    rw [labels_add, List.getElem?_append_left hlt, hlabel]
  cases h with
  | remember entry => exact ⟨label, hlabel, rfl, rfl, fun h => h⟩
  | @add node _ => exact ⟨label, hadd node, rfl, rfl, fun h => h⟩
  | @ensure type _ =>
      rcases ensure_cases builder type with ⟨other, -, heq⟩ |
        ⟨-, other, seeded, hseeded, hfind, -, heq⟩ | ⟨-, -, heq⟩
      · rw [heq]
        exact ⟨label, hlabel, rfl, rfl, fun h => h⟩
      · rw [heq, labels_takeOver]
        by_cases hid : other = id
        · subst hid
          obtain rfl := Option.some.inj (hseeded.symm.trans hlabel)
          obtain ⟨hlisted, hname⟩ := hindexed.label hfind hseeded
          exact ⟨_, List.getElem?_set_self hlt, hlisted.symm, hname.symm, fun _ => rfl⟩
        · exact ⟨label, (List.getElem?_set_ne hid).trans hlabel, rfl, rfl, fun h => h⟩
      · rw [heq]
        exact ⟨label, hadd _, rfl, rfl, fun h => h⟩

/-! ### Types that were met -/

/-- Types of the session are told apart by their handles. -/
def Scope.HandlesDiffer (scope : Scope) : Prop :=
  ∀ a ∈ scope.session.types, ∀ b ∈ scope.session.types, a.handle = b.handle → a = b

theorem indexed_seed : TypeGraph.seed.Indexed := by
  have hadd {graph : TypeGraph} (h : graph.Indexed) (name : String) (node : Node) :
      (Seed.addToDirectives graph name node).Indexed :=
    (h.add node).congr rfl rfl
  have hplain : (Seed.plainTypes.foldl TypeGraph.add {}).Indexed :=
    List.foldlRecOn _ _ indexed_empty fun _ h node _ => h.add node
  unfold TypeGraph.seed
  refine List.foldlRecOn _ _ (List.foldlRecOn _ _ hplain ?_) ?_
  · exact fun graph h entry _ => hadd h _ _
  · exact fun graph h entry _ => hadd h _ _

/-- Every type that was met is in the graph under its name, by which it is found. -/
structure Anchored (scope : Scope) (builder : Builder) : Prop where
  indexed : builder.graph.Indexed
  met : ∀ type ∈ scope.session.types, ∀ id, builder.ids.lookup type.handle = some id →
    ∃ label, builder.graph.labels[id]? = some label ∧ label.isListed = true ∧
      label.fullName = type.fullName ∧ label.handle.isSome = true

theorem anchored_seed (scope : Scope) : Anchored scope {} :=
  ⟨indexed_seed, fun _ _ _ h => absurd h (by simp)⟩

theorem find?_seed_eq_none {name : String} (h : GenericName.ofString? name ≠ none) :
    TypeGraph.seed.find? name = none := by
  have hplain : ∀ entry ∈ TypeGraph.seed.names, GenericName.ofString? entry.2 = none := by
    decide +kernel
  rw [indexed_seed, firstListed?, List.findIdx?_eq_none_iff]
  intro entry hmem
  have hne : entry.2 ≠ name := fun heq => h (heq ▸ hplain entry hmem)
  simp [hne]

theorem Anchored.congr (h : Anchored scope builder)
    (hlabels : next.graph.labels = builder.graph.labels)
    (hindex : next.graph.byFullName = builder.graph.byFullName) (hids : next.ids = builder.ids) :
    Anchored scope next := by
  refine ⟨h.indexed.congr hindex (by rw [names, names, hlabels]), ?_⟩
  rw [hlabels, hids]
  exact h.met

private theorem lookup_ensure_of_ne (builder : Builder) (type : SessionType) {handle : Handle}
    (h : handle ≠ type.handle) :
    (builder.ensure type).2.ids.lookup handle = builder.ids.lookup handle := by
  have hne : (handle == type.handle) = false := beq_eq_false_iff_ne.mpr h
  rcases ensure_cases builder type with ⟨id, -, heq⟩ | ⟨-, id, label, -, -, -, heq⟩ |
    ⟨-, -, heq⟩
  · rw [heq]
  · rw [heq, List.lookup_cons, hne]
  · rw [heq, List.lookup_cons, hne]

theorem Anchored.ensure (h : Anchored scope builder) {type : SessionType}
    (htype : type ∈ scope.session.types) :
    ∃ label, (builder.ensure type).2.graph.labels[(builder.ensure type).1]? = some label ∧
      label.isListed = true ∧ label.fullName = type.fullName ∧ label.handle.isSome = true := by
  rcases ensure_cases builder type with ⟨id, hid, heq⟩ |
    ⟨-, id, label, hlabel, -, -, heq⟩ | ⟨-, -, heq⟩
  · rw [heq]
    exact h.met type htype id hid
  · refine ⟨metLabel type true, ?_, rfl, rfl, rfl⟩
    have hlt := (List.getElem?_eq_some_iff.mp hlabel).1
    rw [heq, labels_takeOver, List.getElem?_set_self hlt]
  · refine ⟨metLabel type false, ?_, rfl, rfl, rfl⟩
    rw [heq, labels_getElem?, get?_add_length]
    rfl

theorem Anchored.grow (h : Anchored scope builder) (hhandles : scope.HandlesDiffer)
    (hgrow : Grow scope builder next) : Anchored scope next := by
  have hold (type : SessionType) (htype : type ∈ scope.session.types) (id : TypeId)
      (hid : builder.ids.lookup type.handle = some id) :
      ∃ label, next.graph.labels[id]? = some label ∧ label.isListed = true ∧
        label.fullName = type.fullName ∧ label.handle.isSome = true := by
    obtain ⟨label, hlabel, hlisted, hname, hsome⟩ := h.met type htype id hid
    obtain ⟨other, hother, hlisted', hname', hsome'⟩ := hgrow.label h.indexed hlabel
    exact ⟨other, hother, hlisted'.trans hlisted, hname'.trans hname, hsome' hsome⟩
  refine ⟨(hgrow.continues h.indexed).indexed, ?_⟩
  intro type htype id hid
  cases hgrow with
  | remember entry => exact h.met type htype id hid
  | add hnode => exact hold type htype id hid
  | @ensure met hmet =>
      by_cases hhandle : type.handle = met.handle
      · obtain rfl := hhandles type htype met hmet hhandle
        obtain rfl := Option.some.inj ((lookup_ensure builder type).symm.trans hid)
        exact h.ensure htype
      · rw [lookup_ensure_of_ne builder met hhandle] at hid
        exact hold type htype id hid

theorem Anchored.grows (h : Anchored scope builder) (hhandles : scope.HandlesDiffer)
    (hgrows : Grows scope builder next) : Anchored scope next := by
  induction hgrows with
  | refl => exact h
  | tail _ hlast ih => exact ih.grow hhandles hlast

/-! ### Steps -/

theorem Anchored.step (h : Anchored scope builder) (hhandles : scope.HandlesDiffer)
    (hstep : Step scope builder next) : Anchored scope next := by
  rcases hstep.labels with hrequest | ⟨hlabels, hids, -, hindex⟩
  · exact h.grows hhandles (Requests.grows (.single hrequest))
  · exact h.congr hlabels hindex hids

theorem IsInstance.congr {node other : Node} (h : IsInstance node)
    (hlabel : other.label = node.label) : IsInstance other := by
  have hname : other.fullName = node.fullName := congrArg Label.fullName hlabel
  exact ⟨(congrArg Label.handle hlabel).trans h.handle,
    (congrArg Label.isBuiltin hlabel).trans h.isBuiltin, hname ▸ h.name⟩

theorem Annotates.continues {graph next : TypeGraph} (h : Annotates graph next)
    (hindexed : graph.Indexed) : Continues graph next := by
  have hlabels : next.labels = graph.labels :=
    Annotates.map_eq (fun _ _ => rfl) (fun _ _ => rfl) h
  exact hindexed.continues h.byFullName_eq (by rw [names, names, hlabels])

theorem harvest_continues (hindexed : builder.graph.Indexed) (id : TypeId) {type : SessionType}
    (htype : type ∈ scope.session.types) :
    Continues builder.graph (harvest scope builder (id, type)).graph := by
  obtain ⟨grown, gathered, argument, graph, hchained, hgrown, -, -, hgraph, heq⟩ :=
    harvest_spec builder id htype
  have hgrows := Grows.continues (Requests.grows (hchained.trans hgrown)) hindexed
  have hlabels : (grown.graph.modify id (setMembers gathered argument)).labels =
      grown.graph.labels :=
    labels_modify_same grown.graph id fun _ => rfl
  have hmembers : Continues grown.graph (grown.graph.modify id (setMembers gathered argument)) :=
    hgrows.indexed.continues rfl (by rw [names, names, hlabels])
  rw [heq]
  exact (hgrows.trans hmembers).trans (hgraph.continues hmembers.indexed)

theorem Step.continues (h : Step scope builder next) (hindexed : builder.graph.Indexed) :
    Continues builder.graph next.graph := by
  rcases h.labels with hrequest | ⟨hlabels, -, -, hindex⟩
  · exact Grows.continues (Requests.grows (.single hrequest)) hindexed
  · exact hindexed.continues hindex (by rw [names, names, hlabels])

theorem Run.continues (h : Run scope builder next) (hindexed : builder.graph.Indexed) :
    Continues builder.graph next.graph := by
  induction h with
  | refl => exact hindexed.continues rfl rfl
  | tail _ hlast ih => exact ih.trans (hlast.continues ih.indexed)

/-- A name that is found stands for the same type at every later point. -/
theorem Run.find?_some (h : Run scope builder next) {name : String} {id : TypeId}
    (hid : builder.graph.find? name = some id) : next.graph.find? name = some id := by
  induction h with
  | refl => exact hid
  | tail _ hlast ih =>
      rcases hlast.labels with hrequest | ⟨-, -, -, hindex⟩
      · exact (Grows.extends (Requests.grows (.single hrequest))).find?_some ih
      · rw [find?, hindex]
        exact ih

theorem Step.extends (h : Step scope builder next) (hanchored : Anchored scope builder) :
    Extends scope builder next := by
  rcases h.labels with hrequest | ⟨-, -, -, hindex⟩
  · exact Grows.extends (Requests.grows (.single hrequest))
  have hfind (name : String) : next.graph.find? name = builder.graph.find? name := by
    rw [find?, find?, hindex]
  refine ⟨fun hid => (hfind _).trans hid, fun hid => .inl ((hfind _).symm.trans hid), ?_⟩
  intro id node hnode hinstance
  cases h with
  | request hrequest =>
      exact (Grows.extends (Requests.grows (.single hrequest))).instances hnode hinstance
  | @members type other gathered argument htype hid =>
      have hne : other ≠ id := by
        rintro rfl
        obtain ⟨label, hlabel, -, -, hsome⟩ := hanchored.met type htype other hid
        rw [labels_getElem?, hnode] at hlabel
        obtain rfl := Option.some.inj hlabel
        simp [Node.label, hinstance.handle] at hsome
      refine ⟨node, ?_, hinstance, rfl, rfl, rfl⟩
      rw [Builder.mapGraph, get?_modify, hnode, Option.map_some, if_neg hne]
  | annotate hannotate =>
      have hview := @Annotates.map_eq _ (fun node => (node.label, node.underlying, node.items))
        (fun _ _ => rfl) (fun _ _ => rfl) _ _ (.single hannotate)
      obtain ⟨other, hother, heq⟩ := exists_get?_of_map_eq hview hnode
      obtain ⟨hlabel, hunderlying, hitems⟩ : other.label = node.label ∧
        other.underlying = node.underlying ∧ other.items = node.items := by simpa using heq
      exact ⟨other, hother, hinstance.congr hlabel, congrArg Label.fullName hlabel, hunderlying,
        hitems⟩

theorem Run.extends (h : Run scope builder next) (hanchored : Anchored scope builder)
    (hhandles : scope.HandlesDiffer) : Extends scope builder next ∧ Anchored scope next := by
  induction h with
  | refl => exact ⟨.refl builder, hanchored⟩
  | tail _ hlast ih => exact ⟨ih.1.trans (hlast.extends ih.2), ih.2.step hhandles hlast⟩

/-! ### Plain names -/

/-- It is settled what a name stands for: it is found, or neither the graph nor the session knows
it. -/
structure Settled (scope : Scope) (builder : Builder) (name : String) (value : Option TypeId) :
    Prop where
  find? : builder.graph.find? name = value
  type? : value = none → scope.type? name = none

theorem Settled.mono {name : String} {value : Option TypeId}
    (h : Settled scope builder name value) (hplain : GenericName.ofString? name = none)
    (hextends : Extends scope builder next) : Settled scope next name value := by
  refine ⟨?_, h.type?⟩
  cases value with
  | some id => exact hextends.find?_some h.find?
  | none => rw [hextends.find?_eq hplain (h.type? rfl), h.find?]

theorem Settled.resolvePlain {name : String} {value : Option TypeId}
    (h : Settled scope builder name value) :
    builder.resolvePlain scope name = (value, builder) := by
  rw [Builder.resolvePlain, h.find?]
  cases value with
  | some id => rfl
  | none => simp only [h.type? rfl]

theorem settled_resolvePlain (h : Anchored scope builder) (name : String) :
    Settled scope (builder.resolvePlain scope name).2 name
      (builder.resolvePlain scope name).1 := by
  rw [Builder.resolvePlain]
  cases hfind : builder.graph.find? name with
  | some id => exact ⟨hfind, fun hnone => absurd hnone (by simp)⟩
  | none =>
      cases htype : scope.type? name with
      | none => exact ⟨hfind, fun _ => htype⟩
      | some type =>
          have hname : type.fullName = name := by simpa using List.find?_some htype
          refine ⟨?_, fun hnone => absurd hnone (by simp)⟩
          rcases ensure_cases builder type with ⟨id, hid, -⟩ |
            ⟨-, id, label, -, hfound, -, -⟩ | ⟨-, -, heq⟩
          · obtain ⟨label, hlabel, hlisted, hfull, -⟩ :=
              h.met type (mem_types_of_type? htype) id hid
            rw [← hname, ← hfull] at hfind
            exact absurd hfind (h.indexed.find?_ne_none hlabel hlisted)
          · rw [hname, hfind] at hfound
            exact absurd hfound (by simp)
          · rw [← hname] at hfind ⊢
            dsimp only
            rw [heq]
            exact @find?_add_self _ (describe type) rfl hfind

end XamlAssist.Conversion
