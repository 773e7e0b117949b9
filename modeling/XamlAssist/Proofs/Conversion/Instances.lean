import Mathlib.Data.List.Flatten
import Mathlib.Order.Monotone.Basic
import XamlAssist.Proofs.Conversion.Arrangement
import XamlAssist.Proofs.Conversion.Reachability

/-!
# When instances of generic types are made

An instance is made from the graph as it is when a reference to it is first resolved, so what it has
depends on how far the members of the offered types were gathered by then. Main statements:
`Requests.makes` for what requests do, and `exists_makes` for one offered type.
-/

namespace XamlAssist.Conversion

open TypeGraph

/-- Grows a graph, where instances are made of types that are there. -/
inductive Make (scope : Scope) : Builder → Builder → Prop
  | ensure {builder : Builder} {type : SessionType} :
      type ∈ scope.session.types → Make scope builder (builder.ensure type).2
  | remember {builder : Builder} (entry : InstanceKey × Option TypeId) :
      Make scope builder { builder with instances := entry :: builder.instances }
  | create {builder : Builder} {name : String} {generic : GenericName}
      {definition argument : Option TypeId} (isComplete : Bool) :
      GenericName.ofString? name = some generic →
      (∀ id, definition = some id → id < builder.graph.types.length ∧
        builder.graph.fullNameOf id = generic.definition) →
      (∀ id, argument = some id → id < builder.graph.types.length) →
      Make scope builder (builder.addInstance isComplete
        (Builder.instanceNode builder.graph name generic definition argument)).2

abbrev Makes (scope : Scope) : Builder → Builder → Prop := Relation.ReflTransGen (Make scope)

/-- What is known of every state of a conversion. -/
structure Ready (scope : Scope) (builder : Builder) : Prop where
  anchored : Anchored scope builder
  arranged : Arranged builder
  bounded : builder.Bounded

variable {scope : Scope} {builder next : Builder}

theorem Makes.grows (h : Makes scope builder next) : Grows scope builder next := by
  induction h with
  | refl => exact .refl
  | @tail middle _ _ hlast ih =>
      refine ih.tail ?_
      cases hlast with
      | ensure htype => exact .ensure htype
      | remember entry => exact .remember entry
      | @create name generic definition argument isComplete hname _ _ =>
          have hnode := instanceNode_isInstance middle.graph hname definition argument
          exact .add ⟨hnode.handle, hnode.isBuiltin, hnode.name⟩

private theorem resolvePlain_makes (scope : Scope) (name : String) (builder : Builder) :
    Makes scope builder (builder.resolvePlain scope name).2 := by
  rcases resolvePlain_cases scope name builder with heq | ⟨type, htype, heq⟩
  · rw [heq]
  · rw [heq]
    exact .single (.ensure htype)

private theorem makes_resolvesBy (hhandles : scope.HandlesDiffer) :
    ResolvesBy scope fun builder next => Ready scope builder → Makes scope builder next where
  refl := fun _ _ => .refl
  plain := fun name builder _ => resolvePlain_makes scope name builder
  remember := fun entry _ _ h hready => (h hready).tail (.remember entry)
  add := by
    intro name generic start room reference isComplete hname _ found resolved hresolved hready
    have hplain := resolvePlain_succeeds hready.bounded scope generic.definition
    have hgrows := resolvePlain_grows scope generic.definition start
    have hfound : Ready scope found.2 :=
      ⟨hready.anchored.grows hhandles hgrows, hready.arranged.grows hgrows,
        hplain.inRange.bounded⟩
    have hmakes := hresolved hfound
    have hargument := resolveWithin_succeeds scope room reference found.2 hfound.bounded
    refine ((resolvePlain_makes scope generic.definition start).trans hmakes).tail
      (.create isComplete hname ?_ ?_)
    · intro id hid
      have hfind := (settled_resolvePlain hready.anchored generic.definition).find?.trans hid
      have hlater := (Grows.extends (Makes.grows hmakes)).find?_some hfind
      have hcontinues := Grows.continues (Makes.grows hmakes) hfound.anchored.indexed
      obtain ⟨node, hnode, -, hfull⟩ := hcontinues.indexed.exists_node hlater
      exact ⟨lt_of_get? hnode, (fullNameOf_of_get? hnode).trans hfull⟩
    · intro id hid
      exact hargument.inRange.numbers id (Option.mem_toList.mpr hid)

theorem Ready.request (h : Ready scope builder) (hhandles : scope.HandlesDiffer)
    (hrequest : Request scope builder next) : Ready scope next := by
  have hgrows := Requests.grows (.single hrequest)
  refine ⟨h.anchored.grows hhandles hgrows, h.arranged.grows hgrows, ?_⟩
  cases hrequest with
  | @ensure type _ => exact (ensure_succeeds h.bounded type).inRange.bounded
  | @resolve room reference _ =>
      exact (resolveWithin_succeeds scope room reference builder h.bounded).inRange.bounded

theorem Requests.makes (h : Requests scope builder next) (hhandles : scope.HandlesDiffer)
    (hready : Ready scope builder) : Makes scope builder next ∧ Ready scope next := by
  induction h with
  | refl => exact ⟨.refl, hready⟩
  | tail _ hlast ih =>
      obtain ⟨hmakes, hmiddle⟩ := ih
      refine ⟨hmakes.trans ?_, hmiddle.request hhandles hlast⟩
      cases hlast with
      | ensure htype => exact .single (.ensure htype)
      | @resolve room reference _ =>
          exact (makes_resolvesBy hhandles).resolveWithin room reference _ hmiddle

/-! ### Where a type comes from -/

/-- An instance as it is added, which may not be found by its name. -/
def listedIf (isComplete : Bool) (node : Node) : Node := { node with isListed := isComplete }

/-- How a type of a graph came there, seen from the state before. -/
inductive Origin (scope : Scope) (builder : Builder) : TypeId → Node → Prop
  | kept {id : TypeId} {node : Node} : builder.graph.get? id = some node →
      Origin scope builder id node
  | takenOver {id : TypeId} {seeded : Node} {type : SessionType} :
      builder.graph.get? id = some seeded → id < TypeGraph.seed.types.length →
      type ∈ scope.session.types → builder.ids.lookup type.handle = none →
      seeded.fullName = type.fullName → Origin scope builder id (takeOver seeded (describe type))
  | described (type : SessionType) :
      Origin scope builder builder.graph.types.length (describe type)
  | created {name : String} {generic : GenericName} {definition argument : Option TypeId}
      (isComplete : Bool) : GenericName.ofString? name = some generic →
      (∀ id, definition = some id → id < builder.graph.types.length ∧
        builder.graph.fullNameOf id = generic.definition) →
      (∀ id, argument = some id → id < builder.graph.types.length) →
      Origin scope builder builder.graph.types.length
        (listedIf isComplete
          (Builder.instanceNode builder.graph name generic definition argument))

theorem Make.origin (h : Make scope builder next) (harranged : Arranged builder) {id : TypeId}
    {node : Node} (hnode : next.graph.get? id = some node) : Origin scope builder id node := by
  cases h with
  | remember entry => exact .kept hnode
  | create isComplete hname hdefinition hargument =>
      rcases get?_add_cases hnode with hold | ⟨rfl, rfl⟩
      · exact .kept hold
      · exact .created isComplete hname hdefinition hargument
  | @ensure type htype =>
      rcases ensure_cases builder type with ⟨other, -, heq⟩ |
        ⟨hnew, other, label, hlabel, hfind, hbuiltin, heq⟩ | ⟨-, -, heq⟩
      · rw [heq] at hnode
        exact .kept hnode
      · rw [heq, get?_modify, Option.map_eq_some_iff] at hnode
        obtain ⟨before, hbefore, rfl⟩ := hnode
        split
        · next hid =>
            subst hid
            have hlt := harranged.lt_of_isBuiltin hlabel hbuiltin
            have hname := (harranged.continues.indexed.label hfind hlabel).2
            rw [labels_getElem?, hbefore] at hlabel
            obtain rfl := Option.some.inj hlabel
            exact .takenOver hbefore hlt htype hnew hname
        · exact .kept hbefore
      · rw [heq] at hnode
        rcases get?_add_cases hnode with hold | ⟨rfl, rfl⟩
        · exact .kept hold
        · exact .described type

theorem Makes.length_le (h : Makes scope builder next) (harranged : Arranged builder) :
    builder.graph.types.length ≤ next.graph.types.length :=
  (Grows.continues h.grows harranged.continues.indexed).length_le

theorem Make.get?_of_some (h : Make scope builder next) (harranged : Arranged builder)
    {id : TypeId} {node : Node} (hnode : builder.graph.get? id = some node) :
    next.graph.get? id = some node ∨
      ∃ type ∈ scope.session.types, id < TypeGraph.seed.types.length ∧
        builder.ids.lookup type.handle = none ∧ node.fullName = type.fullName ∧
        next.graph.get? id = some (takeOver node (describe type)) := by
  have hlt := lt_of_get? hnode
  have hlater : id < next.graph.types.length :=
    Nat.lt_of_lt_of_le hlt (Makes.length_le (.single h) harranged)
  have hnext : next.graph.get? id = some next.graph.types[id] := List.getElem?_eq_getElem hlater
  rw [hnext]
  generalize next.graph.types[id] = current at hnext
  cases h.origin harranged hnext with
  | kept hold => exact .inl (hold.symm.trans hnode)
  | takenOver hseeded hid htype hnew hname =>
      obtain rfl := Option.some.inj (hseeded.symm.trans hnode)
      exact .inr ⟨_, htype, hid, hnew, hname, rfl⟩
  | described type => exact absurd hlt (Nat.lt_irrefl _)
  | created _ _ _ _ => exact absurd hlt (Nat.lt_irrefl _)

theorem Make.get?_outside (h : Make scope builder next) (harranged : Arranged builder)
    {id : TypeId} {node : Node} (hid : TypeGraph.seed.types.length ≤ id)
    (hnode : builder.graph.get? id = some node) : next.graph.get? id = some node := by
  rcases h.get?_of_some harranged hnode with hsame | ⟨_, _, hlt, _⟩
  · exact hsame
  · exact absurd hlt (Nat.not_lt.mpr hid)

/-! ### Before the members are known -/

/-- A type of the seed or of the session whose members are not known. -/
structure Unfilled (node : Node) : Prop where
  origin : node.isBuiltin = true ∨ node.handle.isSome = true
  properties : node.properties = []
  events : node.events = []

private theorem unfilled_seed : ∀ node ∈ TypeGraph.seed.types, Unfilled node := by
  have hall : TypeGraph.seed.types.all fun node =>
      node.isBuiltin && (node.properties = [] && node.events = []) := by decide +kernel
  intro node hnode
  have h := List.all_eq_true.mp hall node hnode
  simp only [Bool.and_eq_true, decide_eq_true_eq] at h
  exact ⟨.inl h.1, h.2.1, h.2.2⟩

private theorem unfilled_ensure (h : ∀ node ∈ builder.graph.types, Unfilled node)
    (type : SessionType) :
    ∀ node ∈ (builder.ensure type).2.graph.types, Unfilled node := by
  rcases ensure_cases builder type with ⟨id, -, heq⟩ | ⟨-, id, label, -, -, -, heq⟩ |
    ⟨-, -, heq⟩
  · rw [heq]
    exact h
  · rw [heq]
    intro node hnode
    rcases mem_types_modify hnode with hold | ⟨before, -, rfl⟩
    · exact h node hold
    · exact ⟨.inl rfl, rfl, rfl⟩
  · rw [heq]
    intro node hnode
    rcases List.mem_append.mp hnode with hnode | hnode
    · exact h node hnode
    · obtain rfl := List.mem_singleton.mp hnode
      exact ⟨.inr rfl, rfl, rfl⟩

theorem unfilled_register (scope : Scope) :
    ∀ node ∈ (register scope).2.graph.types, Unfilled node := by
  refine List.foldlRecOn
    (motive := fun state : List (TypeId × SessionType) × Builder =>
      ∀ node ∈ state.2.graph.types, Unfilled node)
    _ _ unfilled_seed fun state hstate library _ => ?_
  refine List.foldlRecOn
    (motive := fun state : List (TypeId × SessionType) × Builder =>
      ∀ node ∈ state.2.graph.types, Unfilled node)
    _ _ hstate fun state hstate type _ => ?_
  have htypes : (registerType library.library state type).2.graph.types =
      (state.2.ensure type).2.graph.types := by
    rw [graph_registerType]
    exact types_foldl_register type.decl.name _ _ _
  rw [htypes]
  exact unfilled_ensure hstate type

theorem not_isInstance_register {id : TypeId} {node : Node}
    (h : (register scope).2.graph.get? id = some node) : ¬ IsInstance node := by
  intro hinstance
  rcases (unfilled_register scope node (List.mem_of_getElem? h)).origin with hbuiltin | hhandle
  · exact Bool.noConfusion (hinstance.isBuiltin.symm.trans hbuiltin)
  · rw [hinstance.handle] at hhandle
    exact Bool.noConfusion hhandle

/-! ### One offered type after the other -/

/-- The state in which the members of so many offered types are known. -/
def harvestedUpTo (scope : Scope) (count : Nat) : Builder :=
  ((register scope).1.take count).foldl (harvest scope) (register scope).2

theorem harvestedUpTo_zero (scope : Scope) : harvestedUpTo scope 0 = (register scope).2 := by
  rw [harvestedUpTo, List.take_zero, List.foldl_nil]

private theorem harvestedUpTo_succ {count : Nat} {pair : TypeId × SessionType}
    (h : (register scope).1[count]? = some pair) :
    harvestedUpTo scope (count + 1) = harvest scope (harvestedUpTo scope count) pair := by
  rw [harvestedUpTo, List.take_add_one, h, List.foldl_append]
  rfl

theorem harvestedUpTo_length (settings : Settings) (session : Session) :
    harvestedUpTo ⟨settings, session⟩ (register ⟨settings, session⟩).1.length =
      harvested settings session := by
  rw [harvestedUpTo, List.take_length]
  rfl

private theorem run_harvestedUpTo (scope : Scope) (count : Nat) :
    Run scope (register scope).2 (harvestedUpTo scope count) := by
  have hregistered := registered_register scope
  refine foldl_harvest_run (fun pair hpair => ?_) fun pair hpair => ?_
  · exact hregistered.mem_types pair (List.mem_of_mem_take hpair)
  · exact hregistered.lookup pair (List.mem_of_mem_take hpair)

theorem ready_harvestedUpTo (hhandles : scope.HandlesDiffer) (count : Nat) :
    Ready scope (harvestedUpTo scope count) := by
  have hintroduced := introduced_register scope
  have hrun := (registered_register scope).run.trans (run_harvestedUpTo scope count)
  have hadvances := foldl_harvest_advances hintroduced.inRange.bounded scope
    ((register scope).1.take count) fun pair hpair =>
      hintroduced.inRange.numbers pair.1 (List.mem_map_of_mem (List.mem_of_mem_take hpair))
  exact ⟨(Run.extends hrun (anchored_seed scope) hhandles).2, arranged_seed.run hrun,
    hadvances.bounded⟩

theorem lookup_harvestedUpTo {pair : TypeId × SessionType} (h : pair ∈ (register scope).1)
    (count : Nat) : (harvestedUpTo scope count).ids.lookup pair.2.handle = some pair.1 :=
  Run.lookup (run_harvestedUpTo scope count) ((registered_register scope).lookup pair h)

private theorem nodup_allOffered (h : scope.session.types.Nodup) : scope.allOffered.Nodup :=
  (List.Sublist.flatMap_right scope.session.libraries fun _ _ => List.filter_sublist).nodup h

private theorem length_harvestedUpTo_le_succ (scope : Scope) (count : Nat) :
    (harvestedUpTo scope count).graph.types.length ≤
      (harvestedUpTo scope (count + 1)).graph.types.length := by
  have hregistered := registered_register scope
  cases hpair : (register scope).1[count]? with
  | none =>
      rw [harvestedUpTo, harvestedUpTo, List.take_add_one, hpair, Option.toList_none,
        List.append_nil]
  | some pair =>
      have hmem := List.mem_of_getElem? hpair
      have hrun := harvest_run (hregistered.mem_types pair hmem) (lookup_harvestedUpTo hmem count)
      have hindexed := Run.continues (hregistered.run.trans (run_harvestedUpTo scope count))
        indexed_seed
      rw [harvestedUpTo_succ hpair]
      exact (hrun.continues hindexed.indexed).length_le

theorem length_harvestedUpTo_mono (scope : Scope) :
    Monotone fun count => (harvestedUpTo scope count).graph.types.length :=
  monotone_nat_of_le_succ (length_harvestedUpTo_le_succ scope)

theorem place_eq_of_offered (hhandles : scope.HandlesDiffer) (hnodup : scope.session.types.Nodup)
    {id : TypeId} (hid : TypeGraph.seed.types.length ≤ id) {first second : Nat}
    {a b : SessionType} (ha : (register scope).1[first]? = some (id, a))
    (hb : (register scope).1[second]? = some (id, b)) : first = second := by
  have hregistered := registered_register scope
  have harranged := (ready_harvestedUpTo hhandles 0).arranged
  have hhandle {type : SessionType} (htype : (id, type) ∈ (register scope).1) :
      ∃ label, (harvestedUpTo scope 0).graph.labels[id]? = some label ∧
        label.handle = some type.handle := by
    obtain ⟨label, hlabel, hmet⟩ := harranged.met (lookup_harvestedUpTo htype 0)
    exact ⟨label, hlabel, hmet (harranged.outside hlabel hid).isBuiltin⟩
  obtain ⟨label, hlabel, hfirst⟩ := hhandle (List.mem_of_getElem? ha)
  obtain ⟨other, hother, hsecond⟩ := hhandle (List.mem_of_getElem? hb)
  obtain rfl := Option.some.inj (hlabel.symm.trans hother)
  obtain rfl := hhandles a (hregistered.mem_types _ (List.mem_of_getElem? ha)) b
    (hregistered.mem_types _ (List.mem_of_getElem? hb))
    (Option.some.inj (hfirst.symm.trans hsecond))
  have htypes : ((register scope).1.map Prod.snd).Nodup := by
    rw [hregistered.types_eq]
    exact nodup_allOffered hnodup
  have hplaces : ((register scope).1.map Prod.snd)[first]? =
      ((register scope).1.map Prod.snd)[second]? := by
    rw [List.getElem?_map, List.getElem?_map, ha, hb]
  have hlt := (List.getElem?_eq_some_iff.mp ha).1
  rw [← List.length_map Prod.snd] at hlt
  exact (List.getElem?_inj hlt htypes).mp hplaces

private theorem types_registerShortName (type : SessionType) (id : TypeId) (builder : Builder) :
    (registerShortName type id builder).graph.types = builder.graph.types := by
  unfold registerShortName
  split
  · rfl
  · refine List.foldlRecOn
      (motive := fun current : Builder => current.graph.types = builder.graph.types)
      _ _ rfl fun current hcurrent space _ => ?_
    unfold registerIfFree
    split
    · exact hcurrent
    · exact hcurrent

/-- The members of an offered type are set after types and instances were made, and nothing else
happens to the types. -/
theorem exists_makes (hhandles : scope.HandlesDiffer) {count : Nat} {pair : TypeId × SessionType}
    (h : (register scope).1[count]? = some pair) :
    ∃ grown gathered argument, Makes scope (harvestedUpTo scope count) grown ∧
      (harvestedUpTo scope (count + 1)).graph.types =
        (grown.graph.modify pair.1 (setMembers gathered argument)).types := by
  have htype := (registered_register scope).mem_types pair (List.mem_of_getElem? h)
  obtain ⟨grown, gathered, argument, hchained, hgrown, -, -, heq⟩ :=
    harvest_shape (harvestedUpTo scope count) pair.1 htype
  have hmakes := Requests.makes (hchained.trans hgrown) hhandles
    (ready_harvestedUpTo hhandles count)
  refine ⟨grown, gathered, argument, hmakes.1, ?_⟩
  rw [harvestedUpTo_succ h, show pair = (pair.1, pair.2) from rfl, heq]
  dsimp only
  split
  · exact types_registerShortName _ _ _
  · rfl

end XamlAssist.Conversion
