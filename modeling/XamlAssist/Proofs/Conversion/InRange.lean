import Mathlib.Tactic.Tauto
import XamlAssist.Proofs.Conversion.Growth
import XamlAssist.Proofs.GenericName
import XamlAssist.Proofs.TypeGraph.Closed

/-!
# Gathering members stays in range

Every number that a graph under construction holds is that of one of its types. Resolving references
and gathering members keep it so, and their checks succeed.
-/

namespace XamlAssist.Conversion

open TypeGraph Library

def Builder.count (builder : Builder) : Nat := builder.graph.types.length

/-- Every number that a builder holds is that of a type of its graph. -/
structure Builder.Bounded (builder : Builder) : Prop where
  closed : builder.graph.Closed
  seeded : TypeGraph.seed.types.length ≤ builder.count
  ids : ∀ entry ∈ builder.ids, entry.2 < builder.count
  instances : ∀ entry ∈ builder.instances, ∀ id ∈ entry.2, id < builder.count

/-- A state of a pass is in range if its builder is bounded and has the types with the numbers of
the state. -/
structure InRange {σ : Type} (numbers : σ → List TypeId) (state : σ × Builder) : Prop where
  bounded : state.2.Bounded
  numbers : ∀ id ∈ numbers state.1, id < state.2.count

theorem InRange.numbers_of_le {σ : Type} {numbers : σ → List TypeId} {state : σ × Builder}
    (h : InRange numbers state) {count : Nat} (hle : state.2.count ≤ count) :
    ∀ id ∈ numbers state.1, id < count :=
  fun id hid => Nat.lt_of_lt_of_le (h.numbers id hid) hle

/-- A builder whose checks have all succeeded so far. -/
def Builder.passing (builder : Builder) : Builder Bool :=
  { graph := builder.graph, ids := builder.ids, instances := builder.instances, checks := true }

theorem Builder.graph_passing (builder : Builder) : builder.passing.graph = builder.graph := rfl

theorem Builder.graph_lookAt (builder : Builder Bool) (ids : List TypeId) :
    (builder.lookAt ids).graph = builder.graph :=
  rfl

theorem Builder.check_passing (builder : Builder) {isInRange : Bool} (h : isInRange = true) :
    builder.passing.check isInRange = builder.passing := by
  subst h
  rfl

theorem Builder.lookAt_passing (builder : Builder) {ids : List TypeId}
    (h : ∀ id ∈ ids, id < builder.count) : builder.passing.lookAt ids = builder.passing :=
  builder.check_passing (List.all_eq_true.mpr fun id hid => decide_eq_true (h id hid))

/-- A pass whose checks succeed has the result of the pass, which is in range, and no type is
lost. -/
structure Succeeds {σ : Type} (numbers : σ → List TypeId) (builder : Builder)
    (checked : σ × Builder Bool) (result : σ × Builder) : Prop where
  eq : checked = (result.1, result.2.passing)
  inRange : InRange numbers result
  count_le : builder.count ≤ result.2.count

private theorem Succeeds.same {σ : Type} {numbers : σ → List TypeId} {state : σ × Builder}
    (h : InRange numbers state) : Succeeds numbers state.2 (state.1, state.2.passing) state :=
  ⟨rfl, h, Nat.le_refl _⟩

theorem Succeeds.nothing {builder : Builder} (h : builder.Bounded) :
    Succeeds Option.toList builder (none, builder.passing) (none, builder) :=
  ⟨rfl, ⟨h, by simp⟩, Nat.le_refl _⟩

private theorem Succeeds.of_le {σ : Type} {numbers : σ → List TypeId} {builder middle : Builder}
    {checked : σ × Builder Bool} {result : σ × Builder}
    (h : Succeeds numbers middle checked result) (hle : builder.count ≤ middle.count) :
    Succeeds numbers builder checked result :=
  ⟨h.eq, h.inRange, Nat.le_trans hle h.count_le⟩

theorem Succeeds.concat {α : Type} {numbers : α → List TypeId} {state : List α × Builder}
    {checked : Option TypeId × Builder Bool} {found : Option TypeId × Builder}
    (h : Succeeds Option.toList state.2 checked found)
    (hstate : InRange (·.flatMap numbers) state) {item : α}
    (hitem : ∀ id ∈ numbers item, id < state.2.count ∨ id ∈ found.1.toList) :
    Succeeds (·.flatMap numbers) state.2 (state.1 ++ [item], found.2.passing)
      (state.1 ++ [item], found.2) := by
  refine ⟨rfl, ⟨h.inRange.bounded, ?_⟩, h.count_le⟩
  intro id hid
  rw [List.flatMap_append, List.mem_append, List.flatMap_singleton] at hid
  rcases hid with hid | hid
  · exact hstate.numbers_of_le h.count_le id hid
  · exact (hitem id hid).elim (Nat.lt_of_lt_of_le · h.count_le) (h.inRange.numbers id)

theorem Succeeds.foldl {σ α : Type} {numbers : σ → List TypeId}
    {checked : σ × Builder Bool → α → σ × Builder Bool} {step : σ × Builder → α → σ × Builder}
    (xs : List α) {state : σ × Builder} (hstate : InRange numbers state)
    (hstep : ∀ current : σ × Builder, state.2.count ≤ current.2.count → InRange numbers current →
      ∀ x, Succeeds numbers current.2 (checked (current.1, current.2.passing) x)
        (step current x)) :
    Succeeds numbers state.2 (xs.foldl checked (state.1, state.2.passing))
      (xs.foldl step state) := by
  induction xs generalizing state with
  | nil => exact .same hstate
  | cons x xs ih =>
      have hfirst := hstep state (Nat.le_refl _) hstate x
      rw [List.foldl_cons, List.foldl_cons, hfirst.eq]
      exact (ih hfirst.inRange fun current hle =>
        hstep current (Nat.le_trans hfirst.count_le hle)).of_le hfirst.count_le

variable {scope : Scope} {builder : Builder}

/-! ### References -/

theorem mem_find?_lt {graph : TypeGraph} (h : graph.Closed) (name : String) :
    ∀ id ∈ (graph.find? name).toList, id < graph.types.length :=
  fun _ hid => h.find? (Option.mem_toList.mp hid)

theorem bounded_seed : Builder.Bounded {} :=
  ⟨closed_seed, Nat.le_refl _, by simp, by simp⟩

theorem Builder.Bounded.mono (h : builder.Bounded) {graph : TypeGraph} (hclosed : graph.Closed)
    (hle : builder.count ≤ graph.types.length) : Builder.Bounded { builder with graph } where
  closed := hclosed
  seeded := Nat.le_trans h.seeded hle
  ids := fun entry hentry => Nat.lt_of_lt_of_le (h.ids entry hentry) hle
  instances := fun entry hentry id hid => Nat.lt_of_lt_of_le (h.instances entry hentry id hid) hle

theorem Builder.Bounded.meet (h : builder.Bounded) (handle : Handle) {id : TypeId}
    (hid : id < builder.count) :
    Builder.Bounded { builder with ids := (handle, id) :: builder.ids } where
  closed := h.closed
  seeded := h.seeded
  ids := by
    intro entry hentry
    rcases List.mem_cons.mp hentry with rfl | hentry
    · exact hid
    · exact h.ids entry hentry
  instances := h.instances

theorem Builder.Bounded.add (h : builder.Bounded) {node : Node}
    (hnode : ∀ id ∈ node.numbers, id < builder.count) :
    Builder.Bounded { builder with graph := builder.graph.add node } :=
  h.mono (h.closed.add hnode) (by simp [Builder.count, TypeGraph.add])

private theorem closed_takeOver {graph : TypeGraph} (h : graph.Closed) (id : TypeId)
    (type : SessionType) :
    (graph.modify id fun seeded => takeOver seeded (describe type)).Closed :=
  h.modify id fun _ _ _ hnumber => absurd hnumber List.not_mem_nil

theorem ensure_passing (h : builder.Bounded) (type : SessionType) :
    builder.passing.ensure type = ((builder.ensure type).1, (builder.ensure type).2.passing) := by
  have hlook := builder.lookAt_passing (mem_find?_lt h.closed type.fullName)
  unfold Builder.ensure
  cases hid : builder.ids.lookup type.handle with
  | some id => simp only [Builder.passing, hid]
  | none =>
      have hpassing : builder.passing.ids.lookup type.handle = none := hid
      simp only [hpassing, Builder.graph_passing, hlook, Builder.lookAt_unchecked]
      cases hseeded : builder.seeded? type.fullName with
      | none =>
          have hpassing : builder.passing.seeded? type.fullName = none := hseeded
          simp only [hpassing]
          rfl
      | some entry =>
          have hpassing : builder.passing.seeded? type.fullName = some entry := hseeded
          simp only [hpassing]
          rfl

theorem ensure_succeeds (h : builder.Bounded) (type : SessionType) :
    Succeeds (fun id => [id]) builder (builder.passing.ensure type) (builder.ensure type) := by
  rw [ensure_passing h type]
  rcases ensure_cases builder type with ⟨id, hid, heq⟩ |
    ⟨-, id, label, hlabel, -, -, heq⟩ | ⟨-, -, heq⟩
  · obtain ⟨before, after, hids, -⟩ := List.lookup_eq_some_iff.mp hid
    have hlt : id < builder.count := h.ids (type.handle, id) (by simp [hids])
    rw [heq]
    exact ⟨rfl, ⟨h, by simpa using hlt⟩, Nat.le_refl _⟩
  · have hlt : id < builder.graph.types.length := by
      rw [← labels_length]
      exact (List.getElem?_eq_some_iff.mp hlabel).1
    have hbounded := h.mono (closed_takeOver h.closed id type) (by simp [Builder.count])
    rw [heq]
    refine ⟨rfl, ⟨hbounded.meet type.handle ?_, ?_⟩, ?_⟩
    · simpa [Builder.count] using hlt
    · simpa [Builder.count] using hlt
    · simp [Builder.count]
  · have hbounded : Builder.Bounded { builder with graph := builder.graph.add (describe type) } :=
      h.add fun number hnumber => absurd hnumber List.not_mem_nil
    rw [heq]
    refine ⟨rfl, ⟨hbounded.meet type.handle ?_, ?_⟩, ?_⟩
    · simp [Builder.count, TypeGraph.add]
    · simp [Builder.count, TypeGraph.add]
    · simp [Builder.count, TypeGraph.add]

theorem resolvePlain_succeeds (h : builder.Bounded) (scope : Scope) (name : String) :
    Succeeds Option.toList builder (builder.passing.resolvePlain scope name)
      (builder.resolvePlain scope name) := by
  unfold Builder.resolvePlain
  rw [Builder.graph_passing]
  cases hfind : builder.graph.find? name with
  | some id =>
      have hlt : id < builder.count := h.closed.find? hfind
      exact ⟨rfl, ⟨h, by simpa using hlt⟩, Nat.le_refl _⟩
  | none =>
      cases scope.type? name with
      | none => exact .nothing h
      | some type =>
          have hensure := ensure_succeeds h type
          dsimp only
          rw [hensure.eq]
          exact ⟨rfl, ⟨hensure.inRange.bounded, hensure.inRange.numbers⟩, hensure.count_le⟩

private theorem numbers_instanceNode {graph : TypeGraph} (h : graph.Closed)
    (hseeded : TypeGraph.seed.types.length ≤ graph.types.length) (name : String)
    (generic : GenericName) {definition argument : Option TypeId}
    (hdefinition : ∀ id ∈ definition.toList, id < graph.types.length)
    (hargument : ∀ id ∈ argument.toList, id < graph.types.length) :
    ∀ id ∈ (Builder.instanceNode graph name generic definition argument).numbers,
      id < graph.types.length := by
  intro id hid
  unfold Builder.instanceNode at hid
  split at hid
  · have hnullable : Seed.nullableId < graph.types.length :=
      Nat.lt_of_lt_of_le (by decide) hseeded
    have hparts : id ∈ argument.toList ∨ id ∈ (definition.or (some Seed.nullableId)).toList := by
      simpa [Node.numbers, Builder.nullableNode, Node.ofNames] using hid
    rcases hparts with hid | hid
    · exact hargument id hid
    · cases definition with
      | none => exact List.mem_singleton.mp hid ▸ hnullable
      | some definition => exact hdefinition id hid
  · have hparts : id ∈ ((definition.bind graph.get?).getD {}).numbers ∨ id ∈ argument.toList ∨
        id ∈ definition.toList := by
      simp only [Node.numbers, Builder.collectionNode, List.mem_append] at hid ⊢
      tauto
    rcases hparts with hid | hid | hid
    · cases hnode : definition.bind graph.get? with
      | none =>
          rw [hnode] at hid
          exact absurd hid List.not_mem_nil
      | some node =>
          obtain ⟨place, -, hplace⟩ := Option.bind_eq_some_iff.mp hnode
          rw [hnode] at hid
          exact h.get? hplace id hid
    · exact hargument id hid
    · exact hdefinition id hid

theorem Succeeds.remember {checked : Option TypeId × Builder Bool}
    {result : Option TypeId × Builder} (h : Succeeds Option.toList builder checked result)
    (key : InstanceKey) :
    Succeeds Option.toList builder (Builder.remember key checked)
      (Builder.remember key result) := by
  refine ⟨?_, ⟨⟨h.inRange.bounded.closed, h.inRange.bounded.seeded,
    h.inRange.bounded.ids, ?_⟩, h.inRange.numbers⟩, h.count_le⟩
  · rw [h.eq]
    rfl
  intro entry hentry id hid
  rcases List.mem_cons.mp hentry with rfl | hentry
  · exact h.inRange.numbers id (Option.mem_toList.mpr hid)
  · exact h.inRange.bounded.instances entry hentry id hid

private theorem addInstance_succeeds (h : builder.Bounded) (isComplete : Bool) {node : Node}
    (hnode : ∀ id ∈ node.numbers, id < builder.count) :
    Succeeds Option.toList builder (builder.passing.addInstance isComplete node)
      (builder.addInstance isComplete node) := by
  refine ⟨rfl, ⟨h.add hnode, ?_⟩, ?_⟩
  · simp [Builder.addInstance, Builder.add, Builder.count, TypeGraph.add]
  · simp [Builder.addInstance, Builder.add, Builder.count, TypeGraph.add]

private theorem arguments_length_pos {name : String} {generic : GenericName}
    (h : GenericName.ofString? name = some generic) :
    decide (0 < generic.arguments.length) = true :=
  decide_eq_true (List.length_pos_iff.mpr (GenericName.arguments_ne_nil h))

theorem Builder.Bounded.instance? (h : builder.Bounded) {isComplete : Bool} {key : InstanceKey}
    {known : Option TypeId} (hknown : builder.instance? isComplete key = some known) :
    ∀ id ∈ known.toList, id < builder.count := by
  unfold Builder.instance? at hknown
  split at hknown
  · next found hfound =>
      obtain rfl := Option.some.inj hknown
      have hfind : builder.graph.find? key.name = some found := by
        cases isComplete with
        | false => exact absurd hfound (by simp)
        | true => exact hfound
      intro id hid
      rw [List.mem_singleton.mp hid]
      exact h.closed.find? hfind
  · obtain ⟨before, after, hinstances, -⟩ := List.lookup_eq_some_iff.mp hknown
    intro id hid
    exact h.instances (key, known) (by simp [hinstances]) id (Option.mem_toList.mp hid)

/-- A way to resolve references and its form with checks belong together. -/
def ResolvesInRange (checked : String → Builder Bool → Option TypeId × Builder Bool)
    (resolve : String → Builder → Option TypeId × Builder) : Prop :=
  ∀ reference builder, Builder.Bounded builder →
    Succeeds Option.toList builder (checked reference builder.passing) (resolve reference builder)

private theorem lookAt_arguments (h : builder.Bounded) (generic : GenericName)
    {definition argument : Option TypeId}
    (hdefinition : ∀ id ∈ definition.toList, id < builder.count)
    (hargument : ∀ id ∈ argument.toList, id < builder.count) :
    builder.passing.lookAt (generic.arguments.filterMap builder.passing.graph.find? ++
      definition.toList ++ argument.toList) = builder.passing := by
  refine builder.lookAt_passing fun id hid => ?_
  rcases List.mem_append.mp hid with hid | hid
  · rcases List.mem_append.mp hid with hid | hid
    · obtain ⟨argument, -, hfind⟩ := List.mem_filterMap.mp hid
      exact h.closed.find? hfind
    · exact hdefinition id hid
  · exact hargument id hid

private theorem resolveInstance_succeeds (h : builder.Bounded) {room : Nat}
    {checked : Option (String → Builder Bool → Option TypeId × Builder Bool)}
    {resolve : Option (String → Builder → Option TypeId × Builder)}
    (hresolve : Option.Rel ResolvesInRange checked resolve) {name : String}
    {generic : GenericName} (hname : GenericName.ofString? name = some generic) :
    Succeeds Option.toList builder
      (builder.passing.resolveInstance scope room checked name generic)
      (builder.resolveInstance scope room resolve name generic) := by
  have hdefinition := resolvePlain_succeeds h scope generic.definition
  unfold Builder.resolveInstance
  dsimp only
  rw [show builder.passing.instance? = builder.instance? from rfl]
  generalize hknown : builder.instance? _ _ = known
  cases known with
  | some known => exact ⟨rfl, ⟨h, h.instance? hknown⟩, Nat.le_refl _⟩
  | none =>
      dsimp only
      rw [hdefinition.eq]
      have hbare := Succeeds.remember ⟨rfl, hdefinition.inRange, hdefinition.count_le⟩
      cases hresolve with
      | none => exact hbare _
      | @some checked resolve hresolve =>
          cases Builder.isSynthesized generic.definition with
          | false => exact hbare _
          | true =>
              have hargument := hresolve (generic.arguments.headD "") _ hdefinition.inRange.bounded
              have hbounded := hargument.inRange.bounded
              have hdefinitionLt := hdefinition.inRange.numbers_of_le hargument.count_le
              have hnode := numbers_instanceNode hbounded.closed hbounded.seeded name generic
                hdefinitionLt hargument.inRange.numbers
              dsimp only
              rw [Builder.check_passing _ (arguments_length_pos hname), hargument.eq]
              dsimp only
              rw [lookAt_arguments hbounded generic hdefinitionLt hargument.inRange.numbers]
              exact ((addInstance_succeeds hbounded _ hnode).of_le
                (Nat.le_trans hdefinition.count_le hargument.count_le)).remember _

private theorem resolveReference_succeeds (h : builder.Bounded) {room : Nat}
    {checked : Option (String → Builder Bool → Option TypeId × Builder Bool)}
    {resolve : Option (String → Builder → Option TypeId × Builder)}
    (hresolve : Option.Rel ResolvesInRange checked resolve) (reference : String) :
    Succeeds Option.toList builder (builder.passing.resolveReference scope room checked reference)
      (builder.resolveReference scope room resolve reference) := by
  unfold Builder.resolveReference
  dsimp only
  generalize String.ofList (Text.trim reference.toList) = name
  cases name.isEmpty with
  | true => exact .nothing h
  | false =>
      cases hname : GenericName.ofString? name with
      | none => exact resolvePlain_succeeds h scope name
      | some generic => exact resolveInstance_succeeds h hresolve hname

theorem resolveWithin_succeeds (scope : Scope) (room : Nat) :
    ResolvesInRange (Builder.resolveWithin scope room) (Builder.resolveWithin scope room) := by
  induction room with
  | zero => exact fun reference _ h => resolveReference_succeeds h .none reference
  | succ room ih => exact fun reference _ h => resolveReference_succeeds h (.some ih) reference

private theorem resolve_succeeds (h : builder.Bounded) (scope : Scope) (reference : String) :
    Succeeds Option.toList builder (builder.passing.resolve scope reference)
      (builder.resolve scope reference) :=
  resolveWithin_succeeds scope scope.settings.maxGenericDepth reference builder h

private theorem resolveOptional_succeeds (h : builder.Bounded) (scope : Scope)
    (reference : Option String) :
    Succeeds Option.toList builder (builder.passing.resolveOptional scope reference)
      (builder.resolveOptional scope reference) := by
  cases reference with
  | none => exact .nothing h
  | some reference => exact resolve_succeeds h scope reference

/-! ### Members -/

private theorem lt_or_mem_of_mem_cons {declaring id count : Nat} (hdeclaring : declaring < count)
    {types : List TypeId} (hid : id ∈ declaring :: types) : id < count ∨ id ∈ types := by
  rcases List.mem_cons.mp hid with rfl | hid
  · exact .inl hdeclaring
  · exact .inr hid

private theorem gatherProperty_succeeds {declaring : TypeId}
    {state : List TypeGraph.Property × Builder}
    (h : InRange (·.flatMap Property.numbers) state) (hdeclaring : declaring < state.2.count)
    (scope : Scope) (access : Access) (property : Library.Property) :
    Succeeds (·.flatMap Property.numbers) state.2
      (gatherProperty scope access declaring (state.1, state.2.passing) property)
      (gatherProperty scope access declaring state property) := by
  unfold gatherProperty
  dsimp only
  split
  · exact .same h
  · have hresolve := resolve_succeeds h.bounded scope property.typeName
    rw [hresolve.eq]
    exact hresolve.concat h fun _ => lt_or_mem_of_mem_cons hdeclaring

private theorem resolveArguments_succeeds (h : builder.Bounded) (scope : Scope)
    (handlerType : String) :
    Succeeds Option.toList builder (resolveArguments scope handlerType builder.passing)
      (resolveArguments scope handlerType builder) := by
  unfold resolveArguments
  cases hgeneric : GenericName.ofString? handlerType with
  | some generic =>
      dsimp only
      rw [builder.check_passing (arguments_length_pos hgeneric)]
      split
      · exact resolve_succeeds h scope _
      · exact .nothing h
  | none =>
      dsimp only
      split
      · exact resolve_succeeds h scope _
      · exact .nothing h

private theorem gatherEvent_succeeds {declaring : TypeId} {state : List TypeGraph.Event × Builder}
    (h : InRange (·.flatMap Event.numbers) state) (hdeclaring : declaring < state.2.count)
    (scope : Scope) (access : Access) (event : Library.Event) :
    Succeeds (·.flatMap Event.numbers) state.2
      (gatherEvent scope access declaring (state.1, state.2.passing) event)
      (gatherEvent scope access declaring state event) := by
  unfold gatherEvent
  dsimp only
  split
  · exact .same h
  · have hresolve := resolveArguments_succeeds h.bounded scope event.handlerType
    rw [hresolve.eq]
    exact hresolve.concat h fun _ => lt_or_mem_of_mem_cons hdeclaring

private theorem gatherTemplatePart_succeeds {state : List TemplatePart × Builder}
    (h : InRange (·.flatMap (·.type.toList)) state) (scope : Scope) (declared : Attribute) :
    Succeeds (·.flatMap (·.type.toList)) state.2
      (gatherTemplatePart scope (state.1, state.2.passing) declared)
      (gatherTemplatePart scope state declared) := by
  unfold gatherTemplatePart
  split
  · exact .same h
  cases declared.arguments[0]? with
  | none => exact .same h
  | some name =>
      dsimp only
      split
      · exact .same h
      · have hresolve := resolveOptional_succeeds h.bounded scope declared.arguments[1]?
        rw [hresolve.eq]
        exact hresolve.concat h fun _ => .inr

private theorem resolveItems_succeeds (h : builder.Bounded) (scope : Scope)
    (baseType : Option String) :
    Succeeds Option.toList builder (resolveItems scope baseType builder.passing)
      (resolveItems scope baseType builder) := by
  unfold resolveItems
  cases hgeneric : baseType.bind GenericName.ofString? with
  | none => exact .nothing h
  | some generic =>
      obtain ⟨name, -, hname⟩ := Option.bind_eq_some_iff.mp hgeneric
      dsimp only
      rw [builder.check_passing (arguments_length_pos hname)]
      split
      · exact resolve_succeeds h scope _
      · exact .nothing h

/-- The numbers of types among what was gathered. -/
def Gathered.numbers (gathered : Gathered) : List TypeId :=
  gathered.properties.flatMap Property.numbers ++ gathered.events.flatMap Event.numbers ++
    gathered.templateParts.flatMap (·.type.toList) ++ gathered.items.toList

theorem Gathered.numbers_lt_iff {gathered : Gathered} {count : Nat} :
    (∀ id ∈ gathered.numbers, id < count) ↔
      (∀ id ∈ gathered.properties.flatMap Property.numbers, id < count) ∧
      (∀ id ∈ gathered.events.flatMap Event.numbers, id < count) ∧
      (∀ id ∈ gathered.templateParts.flatMap (·.type.toList), id < count) ∧
      (∀ id ∈ gathered.items.toList, id < count) := by
  simp only [Gathered.numbers, List.forall_mem_append, and_assoc]

private theorem gatherItems_succeeds (h : builder.Bounded) (scope : Scope)
    (baseType : Option String) (items : Option TypeId) : (∀ id ∈ items.toList, id < builder.count) →
    Succeeds Option.toList builder
      (match items with
      | some items => (some items, builder.passing)
      | none => resolveItems scope baseType builder.passing)
      (match items with
      | some items => (some items, builder)
      | none => resolveItems scope baseType builder) := by
  intro hitems
  cases items with
  | some items => exact ⟨rfl, ⟨h, hitems⟩, Nat.le_refl _⟩
  | none => exact resolveItems_succeeds h scope baseType

private theorem gatherProperties_succeeds {declaring : TypeId}
    {state : List TypeGraph.Property × Builder}
    (h : InRange (·.flatMap Property.numbers) state) (hdeclaring : declaring < state.2.count)
    (scope : Scope) (access : Access) (properties : List Library.Property) :
    Succeeds (·.flatMap Property.numbers) state.2
      (properties.foldl (gatherProperty scope access declaring) (state.1, state.2.passing))
      (properties.foldl (gatherProperty scope access declaring) state) :=
  .foldl properties h fun _ hle hcurrent property =>
    gatherProperty_succeeds hcurrent (Nat.lt_of_lt_of_le hdeclaring hle) scope access property

private theorem gatherEvents_succeeds {declaring : TypeId} {state : List TypeGraph.Event × Builder}
    (h : InRange (·.flatMap Event.numbers) state) (hdeclaring : declaring < state.2.count)
    (scope : Scope) (access : Access) (events : List Library.Event) :
    Succeeds (·.flatMap Event.numbers) state.2
      (events.foldl (gatherEvent scope access declaring) (state.1, state.2.passing))
      (events.foldl (gatherEvent scope access declaring) state) :=
  .foldl events h fun _ hle hcurrent event =>
    gatherEvent_succeeds hcurrent (Nat.lt_of_lt_of_le hdeclaring hle) scope access event

private theorem gatherTemplateParts_succeeds {state : List TemplatePart × Builder}
    (h : InRange (·.flatMap (·.type.toList)) state) (scope : Scope)
    (declared : List Attribute) :
    Succeeds (·.flatMap (·.type.toList)) state.2
      (declared.foldl (gatherTemplatePart scope) (state.1, state.2.passing))
      (declared.foldl (gatherTemplatePart scope) state) :=
  .foldl declared h fun _ _ hcurrent part => gatherTemplatePart_succeeds hcurrent scope part

theorem gatherType_succeeds {state : Gathered × Builder} (h : InRange Gathered.numbers state)
    (scope : Scope) (type : SessionType) :
    Succeeds Gathered.numbers state.2 (gatherType scope (state.1, state.2.passing) type)
      (gatherType scope state type) := by
  obtain ⟨gathered, start⟩ := state
  have hparts (count : Nat) (hle : start.count ≤ count) :=
    Gathered.numbers_lt_iff.mp (h.numbers_of_le hle)
  have hmet := ensure_succeeds h.bounded type
  have hdeclaring := hmet.inRange.numbers _ List.mem_cons_self
  have hproperties := @gatherProperties_succeeds _ (gathered.properties, (start.ensure type).2)
    ⟨hmet.inRange.bounded, (hparts _ hmet.count_le).1⟩ hdeclaring scope
    (scope.accessOf type.library) type.decl.properties
  have hle := Nat.le_trans hmet.count_le hproperties.count_le
  have hevents := @gatherEvents_succeeds _ (gathered.events, _)
    ⟨hproperties.inRange.bounded, (hparts _ hle).2.1⟩
    (Nat.lt_of_lt_of_le hdeclaring hproperties.count_le) scope (scope.accessOf type.library)
    type.decl.events
  have hle := Nat.le_trans hle hevents.count_le
  have htemplateParts := @gatherTemplateParts_succeeds (gathered.templateParts, _)
    ⟨hevents.inRange.bounded, (hparts _ hle).2.2.1⟩ scope type.decl.attributes
  have hle := Nat.le_trans hle htemplateParts.count_le
  have hitems := gatherItems_succeeds htemplateParts.inRange.bounded scope type.decl.baseType
    gathered.items (hparts _ hle).2.2.2
  refine ⟨?_, ⟨hitems.inRange.bounded, Gathered.numbers_lt_iff.mpr ⟨?_, ?_, ?_, ?_⟩⟩,
    Nat.le_trans hle hitems.count_le⟩
  · simp only [gatherType, hmet.eq, hproperties.eq, hevents.eq, htemplateParts.eq]
    exact congrArg (fun found : Option TypeId × Builder Bool =>
      ((⟨_, _, _, _, found.1, _, _⟩ : Gathered), found.2)) hitems.eq
  · exact hproperties.inRange.numbers_of_le
      (Nat.le_trans hevents.count_le (Nat.le_trans htemplateParts.count_le hitems.count_le))
  · exact hevents.inRange.numbers_of_le (Nat.le_trans htemplateParts.count_le hitems.count_le)
  · exact htemplateParts.inRange.numbers_of_le hitems.count_le
  · exact hitems.inRange.numbers

/-! ### Attached members and constructors -/

private theorem hasValueType_accessor (access : Access) (type : TypeDecl) (name : String)
    (getter : Option Method) (field : Field) :
    hasValueType getter (accessor? access type name 2) field = true := by
  unfold hasValueType
  cases hsetter : accessor? access type name 2 with
  | some setter =>
      have harity : setter.parameters.length = 2 := by
        have hfound := List.find?_some hsetter
        simp only [Bool.and_eq_true, decide_eq_true_eq] at hfound
        exact hfound.2
      simp [harity]
  | none =>
      cases hgeneric : GenericName.ofString? field.typeName with
      | none => simp
      | some generic => simp [GenericName.arguments_ne_nil hgeneric, List.length_pos_iff]

private theorem gatherAttachedProperty_succeeds {declaring : TypeId}
    {state : List TypeGraph.Property × Builder} (h : InRange (·.flatMap Property.numbers) state)
    (hdeclaring : declaring < state.2.count) (scope : Scope) (access : Access) (type : TypeDecl)
    (field : Field) :
    Succeeds (·.flatMap Property.numbers) state.2
      (gatherAttachedProperty scope access type declaring (state.1, state.2.passing) field)
      (gatherAttachedProperty scope access type declaring state field) := by
  unfold gatherAttachedProperty
  cases attachedPropertyName? access field with
  | none => exact .same h
  | some name =>
      dsimp only
      split
      · exact .same h
      split
      · exact .same h
      · have hresolve := resolveOptional_succeeds h.bounded scope
          (valueType? (accessor? access type ("Get" ++ name) 1)
            (accessor? access type ("Set" ++ name) 2) field)
        rw [Builder.check_passing _ (hasValueType_accessor access type _ _ field), hresolve.eq]
        exact hresolve.concat h fun _ => lt_or_mem_of_mem_cons hdeclaring

private theorem all_arguments_length_pos (name : String) :
    (GenericName.ofString? name).all (0 < ·.arguments.length) = true := by
  cases hgeneric : GenericName.ofString? name with
  | none => rfl
  | some generic => exact arguments_length_pos hgeneric

private theorem gatherAttachedEvent_succeeds {declaring : TypeId}
    {state : List TypeGraph.Event × Builder}
    (h : InRange (·.flatMap Event.numbers) state) (hdeclaring : declaring < state.2.count)
    (scope : Scope) (access : Access) (field : Field) :
    Succeeds (·.flatMap Event.numbers) state.2
      (gatherAttachedEvent scope access declaring (state.1, state.2.passing) field)
      (gatherAttachedEvent scope access declaring state field) := by
  unfold gatherAttachedEvent
  cases attachedEventName? access field with
  | none => exact .same h
  | some name =>
      dsimp only
      split
      · exact .same h
      · have hresolve := resolve_succeeds h.bounded scope (eventReference field)
        rw [Builder.check_passing _ (all_arguments_length_pos field.typeName), hresolve.eq]
        exact hresolve.concat h fun _ => lt_or_mem_of_mem_cons hdeclaring

theorem gatherArgument_succeeds {state : ArgumentKinds × Builder}
    (h : InRange (fun _ => []) state) (scope : Scope) (constructor : Method) :
    Succeeds (fun _ => []) state.2 (gatherArgument scope (state.1, state.2.passing) constructor)
      (gatherArgument scope state constructor) := by
  have hsame (kinds : ArgumentKinds) :
      Succeeds (fun _ => []) state.2 (kinds, state.2.passing) (kinds, state.2) :=
    ⟨rfl, ⟨h.bounded, h.numbers⟩, Nat.le_refl _⟩
  unfold gatherArgument
  split
  · next parameter _ hparameters =>
      have hfirst : decide (0 < constructor.parameters.length) = true := by simp [hparameters]
      dsimp only
      rw [Builder.check_passing _ hfirst]
      split
      · exact hsame _
      split
      · exact hsame _
      · have hresolve := resolve_succeeds h.bounded scope parameter.typeName
        rw [hresolve.eq]
        dsimp only
        rw [Builder.lookAt_passing _ hresolve.inRange.numbers]
        exact ⟨rfl, ⟨hresolve.inRange.bounded, by simp⟩, hresolve.count_le⟩
  · exact hsame _

theorem gatherAttachedProperties_succeeds {declaring : TypeId}
    {state : List TypeGraph.Property × Builder} (h : InRange (·.flatMap Property.numbers) state)
    (hdeclaring : declaring < state.2.count) (scope : Scope) (access : Access) (type : TypeDecl)
    (fields : List Field) :
    Succeeds (·.flatMap Property.numbers) state.2
      (fields.foldl (gatherAttachedProperty scope access type declaring) (state.1, state.2.passing))
      (fields.foldl (gatherAttachedProperty scope access type declaring) state) :=
  .foldl fields h fun _ hle hcurrent field => gatherAttachedProperty_succeeds hcurrent
    (Nat.lt_of_lt_of_le hdeclaring hle) scope access type field

theorem gatherAttachedEvents_succeeds {declaring : TypeId} {state : List TypeGraph.Event × Builder}
    (h : InRange (·.flatMap Event.numbers) state) (hdeclaring : declaring < state.2.count)
    (scope : Scope) (access : Access) (fields : List Field) :
    Succeeds (·.flatMap Event.numbers) state.2
      (fields.foldl (gatherAttachedEvent scope access declaring) (state.1, state.2.passing))
      (fields.foldl (gatherAttachedEvent scope access declaring) state) :=
  .foldl fields h fun _ hle hcurrent field => gatherAttachedEvent_succeeds hcurrent
    (Nat.lt_of_lt_of_le hdeclaring hle) scope access field

end XamlAssist.Conversion
