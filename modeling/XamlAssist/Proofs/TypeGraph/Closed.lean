import XamlAssist.Proofs.TypeGraph.Frame
import XamlAssist.TypeGraph.Seed

/-!
# The numbers in a graph

A graph is closed if every number in it is that of one of its types. The ways to build a graph keep
it closed.
-/

namespace XamlAssist

private theorem OrderedMap.mem_insertEntry {κ α : Type} [BEq κ] {key : κ} {value : α}
    {entries : List (κ × α)} {entry : κ × α} (h : entry ∈ insertEntry key value entries) :
    entry = (key, value) ∨ entry ∈ entries := by
  induction entries with
  | nil => exact .inl (List.mem_singleton.mp h)
  | cons first entries ih =>
      rw [insertEntry] at h
      split at h
      · rcases List.mem_cons.mp h with rfl | h
        · exact .inl rfl
        · exact .inr (List.mem_cons_of_mem first h)
      · rcases List.mem_cons.mp h with rfl | h
        · exact .inr List.mem_cons_self
        · exact (ih h).imp id (List.mem_cons_of_mem first)

private theorem OrderedMap.mem_values_insertIfNew {κ α : Type} [BEq κ] {map : OrderedMap κ α}
    {key : κ} {value other : α} (h : other ∈ (map.insertIfNew key value).values) :
    other = value ∨ other ∈ map.values := by
  unfold insertIfNew at h
  split at h
  · exact .inr h
  · obtain ⟨entry, hentry, rfl⟩ := List.mem_map.mp h
    rcases mem_insertEntry hentry with rfl | hentry
    · exact .inl rfl
    · exact .inr (List.mem_map_of_mem hentry)

theorem OrderedMap.mem_entries_of_get? {κ α : Type} [BEq κ] [LawfulBEq κ] {map : OrderedMap κ α}
    {key : κ} {value : α} (h : map.get? key = some value) : (key, value) ∈ map.entries := by
  obtain ⟨before, after, heq, -⟩ := List.lookup_eq_some_iff.mp h
  rw [heq]
  exact List.mem_append_right before List.mem_cons_self

namespace TypeGraph

def Property.numbers (property : Property) : List TypeId :=
  property.declaring :: property.type.toList

def Event.numbers (event : Event) : List TypeId := event.declaring :: event.type.toList

/-- The numbers of types that a type holds. -/
def Node.numbers (node : Node) : List TypeId :=
  node.properties.flatMap Property.numbers ++ node.events.flatMap Event.numbers ++
    node.templateParts.flatMap (·.type.toList) ++ node.underlying.toList ++ node.items.toList ++
    node.definition.toList

/-- The numbers of types in a graph: those that its types hold, those of its namespaces and those of
its index of full names. -/
def numbers (graph : TypeGraph) : List TypeId :=
  graph.types.flatMap Node.numbers ++
    graph.namespaces.entries.flatMap (fun space => space.2.values) ++ graph.byFullName.values

/-- Every number in a graph is that of one of its types. -/
def Closed (graph : TypeGraph) : Prop := ∀ id ∈ graph.numbers, id < graph.types.length

variable {graph : TypeGraph} {id : TypeId}

theorem Closed.types (h : graph.Closed) {node : Node} (hnode : node ∈ graph.types) :
    ∀ id ∈ node.numbers, id < graph.types.length :=
  fun id hid => h id (List.mem_append_left _
    (List.mem_append_left _ (List.mem_flatMap.mpr ⟨node, hnode, hid⟩)))

theorem Closed.get? (h : graph.Closed) {node : Node} (hnode : graph.get? id = some node) :
    ∀ id ∈ node.numbers, id < graph.types.length :=
  h.types (List.mem_of_getElem? hnode)

theorem Closed.namespaces (h : graph.Closed) {space : String × OrderedMap String TypeId}
    (hspace : space ∈ graph.namespaces.entries) :
    ∀ id ∈ space.2.values, id < graph.types.length :=
  fun id hid => h id (List.mem_append_left _
    (List.mem_append_right _ (List.mem_flatMap.mpr ⟨space, hspace, hid⟩)))

theorem Closed.byFullName (h : graph.Closed) :
    ∀ id ∈ graph.byFullName.values, id < graph.types.length :=
  fun id hid => h id (List.mem_append_right _ hid)

theorem Closed.lookup? (h : graph.Closed) {space name : String}
    (hid : graph.lookup? space name = some id) : id < graph.types.length := by
  obtain ⟨names, hnames, hname⟩ := Option.bind_eq_some_iff.mp hid
  exact h.namespaces (OrderedMap.mem_entries_of_get? hnames) id
    (List.mem_map.mpr ⟨(name, id), OrderedMap.mem_entries_of_get? hname, rfl⟩)

theorem Closed.find? (h : graph.Closed) {fullName : String}
    (hid : graph.find? fullName = some id) : id < graph.types.length :=
  h.byFullName id (List.mem_map.mpr ⟨(fullName, id), OrderedMap.mem_entries_of_get? hid, rfl⟩)

theorem closed_of_parts
    (htypes : ∀ node ∈ graph.types, ∀ id ∈ node.numbers, id < graph.types.length)
    (hspaces : ∀ space ∈ graph.namespaces.entries, ∀ id ∈ space.2.values,
      id < graph.types.length)
    (hindex : ∀ id ∈ graph.byFullName.values, id < graph.types.length) : graph.Closed := by
  intro id hid
  rcases List.mem_append.mp hid with hid | hid
  · rcases List.mem_append.mp hid with hid | hid
    · obtain ⟨node, hnode, hid⟩ := List.mem_flatMap.mp hid
      exact htypes node hnode id hid
    · obtain ⟨space, hspace, hid⟩ := List.mem_flatMap.mp hid
      exact hspaces space hspace id hid
  · exact hindex id hid

theorem closed_seed : seed.Closed := by
  unfold Closed
  decide +kernel

private theorem mem_values_add {node : Node} (h : id ∈ (graph.add node).byFullName.values) :
    id = graph.types.length ∨ id ∈ graph.byFullName.values := by
  rw [TypeGraph.add] at h
  split at h
  · exact OrderedMap.mem_values_insertIfNew h
  · exact .inr h

theorem Closed.add (h : graph.Closed) {node : Node}
    (hnode : ∀ id ∈ node.numbers, id < graph.types.length) : (graph.add node).Closed := by
  have hlength : (graph.add node).types.length = graph.types.length + 1 := by simp [TypeGraph.add]
  apply closed_of_parts
  · intro other hother id hid
    rw [hlength]
    rcases List.mem_append.mp hother with hother | hother
    · exact Nat.lt_succ_of_lt (h.types hother id hid)
    · rw [List.mem_singleton.mp hother] at hid
      exact Nat.lt_succ_of_lt (hnode id hid)
  · intro space hspace id hid
    rw [hlength]
    exact Nat.lt_succ_of_lt (h.namespaces hspace id hid)
  · intro id hid
    rw [hlength]
    rcases mem_values_add hid with rfl | hid
    · exact Nat.lt_succ_self _
    · exact Nat.lt_succ_of_lt (h.byFullName id hid)

@[simp] theorem length_types_modify (graph : TypeGraph) (id : TypeId) (change : Node → Node) :
    (graph.modify id change).types.length = graph.types.length := by
  simp [modify]

theorem Closed.modify (h : graph.Closed) (id : TypeId) {change : Node → Node}
    (hchange : ∀ node, (∀ number ∈ node.numbers, number < graph.types.length) →
      ∀ number ∈ (change node).numbers, number < graph.types.length) :
    (graph.modify id change).Closed := by
  apply closed_of_parts
  · intro node hnode
    rw [length_types_modify]
    obtain ⟨place, hplace⟩ := List.mem_iff_getElem?.mp hnode
    change (graph.modify id change).get? place = some node at hplace
    rw [get?_modify, Option.map_eq_some_iff] at hplace
    obtain ⟨old, hold, rfl⟩ := hplace
    split
    · exact hchange old (h.get? hold)
    · exact h.get? hold
  · rw [length_types_modify]
    exact fun _ => h.namespaces
  · rw [length_types_modify]
    exact h.byFullName

theorem Closed.register (h : graph.Closed) (space name : String) (hid : id < graph.types.length) :
    (graph.register space name id).Closed := by
  have hbefore : ∀ number ∈ ((graph.namespaces.get? space).getD {}).values,
      number < graph.types.length := by
    cases hspace : graph.namespaces.get? space with
    | none => exact fun number hnumber => absurd hnumber (by simp [OrderedMap.values])
    | some names => exact h.namespaces (OrderedMap.mem_entries_of_get? hspace)
  apply closed_of_parts
  · exact fun _ => h.types
  · intro entry hentry number hnumber
    rcases OrderedMap.mem_insertEntry hentry with rfl | hentry
    · obtain ⟨named, hnamed, rfl⟩ := List.mem_map.mp hnumber
      rcases OrderedMap.mem_insertEntry hnamed with rfl | hnamed
      · exact hid
      · exact hbefore _ (List.mem_map_of_mem hnamed)
    · exact h.namespaces hentry number hnumber
  · exact h.byFullName

end TypeGraph

end XamlAssist
