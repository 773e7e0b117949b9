import XamlAssist.Proofs.Ordered
import XamlAssist.TypeGraph.Basic

/-!
# What changes of a graph leave as it is

Adding a type keeps those that are there, and changing one keeps the others. A name that is found
stands for the same type for good. The index of full names is right if a name stands for the first
type that is listed under it; the ways to build a graph keep it right.
-/

namespace XamlAssist.TypeGraph

theorem lt_of_get? {graph : TypeGraph} {id : TypeId} {node : Node}
    (h : graph.get? id = some node) : id < graph.types.length :=
  (List.getElem?_eq_some_iff.mp h).1

theorem get?_add_of_some {graph : TypeGraph} {id : TypeId} {node : Node}
    (h : graph.get? id = some node) (new : Node) : (graph.add new).get? id = some node := by
  rw [get?_add_of_lt graph new (lt_of_get? h), h]

theorem get?_add_cases {graph : TypeGraph} {id : TypeId} {new node : Node}
    (h : (graph.add new).get? id = some node) :
    graph.get? id = some node ∨ (id = graph.types.length ∧ node = new) := by
  rw [get?, add, List.getElem?_append] at h
  split at h
  · exact .inl h
  · next hle =>
      obtain ⟨hlt, hnew⟩ := List.getElem?_eq_some_iff.mp h
      rw [List.getElem_singleton] at hnew
      have hzero := Nat.le_of_sub_eq_zero (Nat.lt_one_iff.mp hlt)
      exact .inr ⟨Nat.le_antisymm hzero (Nat.not_lt.mp hle), hnew.symm⟩

/-! ### Labels -/

/-- What tells where a type comes from and by which name it is found. -/
structure Label where
  isListed : Bool
  fullName : String
  isBuiltin : Bool
  handle : Option Handle
  deriving DecidableEq

def Node.label (node : Node) : Label :=
  ⟨node.isListed, node.fullName, node.isBuiltin, node.handle⟩

def labels (graph : TypeGraph) : List Label := graph.types.map Node.label

theorem labels_getElem? (graph : TypeGraph) (id : TypeId) :
    graph.labels[id]? = (graph.get? id).map Node.label := by
  rw [labels, List.getElem?_map]
  rfl

@[simp] theorem labels_length (graph : TypeGraph) : graph.labels.length = graph.types.length := by
  simp [labels]

@[simp] theorem labels_add (graph : TypeGraph) (node : Node) :
    (graph.add node).labels = graph.labels ++ [node.label] := by
  simp [labels, add]

theorem labels_add_of_ne (graph : TypeGraph) (node : Node) {id : TypeId}
    (h : graph.types.length ≠ id) : (graph.add node).labels[id]? = graph.labels[id]? := by
  rw [labels_getElem?, labels_getElem?]
  rcases Nat.lt_or_gt_of_ne h with hlt | hlt
  · have hold : graph.get? id = none := List.getElem?_eq_none (Nat.le_of_lt hlt)
    have hnew : (graph.add node).get? id = none :=
      List.getElem?_eq_none (by rw [add, List.length_append]; exact hlt)
    rw [hold, hnew]
  · rw [get?_add_of_lt graph node hlt]

theorem get?_modify (graph : TypeGraph) (id other : TypeId) (change : Node → Node) :
    (graph.modify id change).get? other =
      (graph.get? other).map fun node => if id = other then change node else node := by
  rw [get?, modify, List.getElem?_modify]
  rfl

theorem mem_types_modify {graph : TypeGraph} {id : TypeId} {change : Node → Node} {node : Node}
    (h : node ∈ (graph.modify id change).types) :
    node ∈ graph.types ∨ ∃ before ∈ graph.types, node = change before := by
  obtain ⟨place, hplace⟩ := List.mem_iff_getElem?.mp h
  obtain ⟨before, hbefore, rfl⟩ := Option.map_eq_some_iff.mp
    ((get?_modify graph id place change).symm.trans hplace)
  have hmem := List.mem_of_getElem? hbefore
  split
  · exact .inr ⟨before, hmem, rfl⟩
  · exact .inl hmem

theorem map_modify_eq {β : Type} {view : Node → β} (graph : TypeGraph) (id : TypeId)
    {change : Node → Node} (h : ∀ node, view (change node) = view node) :
    (graph.modify id change).types.map view = graph.types.map view := by
  apply List.ext_getElem?
  intro other
  simp only [modify, List.getElem?_map, List.getElem?_modify]
  cases graph.types[other]? with
  | none => rfl
  | some node =>
      by_cases hid : id = other
      · simp [hid, h]
      · simp [hid]

theorem exists_get?_of_map_eq {β : Type} {view : Node → β} {graph next : TypeGraph}
    (h : next.types.map view = graph.types.map view) {id : TypeId} {node : Node}
    (hnode : graph.get? id = some node) :
    ∃ other, next.get? id = some other ∧ view other = view node := by
  have hview : (next.types.map view)[id]? = some (view node) := by
    rw [h, List.getElem?_map]
    exact congrArg (Option.map view) hnode
  rw [List.getElem?_map] at hview
  exact Option.map_eq_some_iff.mp hview

theorem labels_modify {graph : TypeGraph} {id : TypeId} {change : Node → Node} {label : Label}
    (h : ∀ node, graph.get? id = some node → (change node).label = label) :
    (graph.modify id change).labels = graph.labels.set id label := by
  apply List.ext_getElem?
  intro other
  rw [labels_getElem?, get?_modify]
  by_cases hid : id = other
  · subst hid
    rw [List.getElem?_set_self', labels_getElem?]
    cases hnode : graph.get? id with
    | none => rfl
    | some node => simp [h node hnode]
  · rw [List.getElem?_set_ne hid, labels_getElem?]
    simp [hid]

theorem labels_modify_same (graph : TypeGraph) (id : TypeId) {change : Node → Node}
    (h : ∀ node, (change node).label = node.label) :
    (graph.modify id change).labels = graph.labels :=
  map_modify_eq graph id h

/-! ### What is found -/

private theorem find?_add_of_isListed (graph : TypeGraph) {node : Node} (h : node.isListed = true)
    (name : String) :
    (graph.add node).find? name =
      (graph.find? name).or ([(node.fullName, graph.types.length)].lookup name) := by
  rw [find?, add, if_pos h, OrderedMap.get?_insertIfNew]
  rfl

private theorem find?_add_of_not_isListed (graph : TypeGraph) {node : Node}
    (h : node.isListed = false)
    (name : String) : (graph.add node).find? name = graph.find? name := by
  simp [add, h, find?]

theorem find?_add_of_some {graph : TypeGraph} {fullName : String} {id : TypeId}
    (h : graph.find? fullName = some id) (node : Node) :
    (graph.add node).find? fullName = some id := by
  cases hlisted : node.isListed with
  | true => rw [find?_add_of_isListed graph hlisted, h, Option.some_or]
  | false => rw [find?_add_of_not_isListed graph hlisted, h]

theorem find?_add_of_ne {graph : TypeGraph} {node : Node} {fullName : String}
    (h : node.isListed = true → node.fullName ≠ fullName) :
    (graph.add node).find? fullName = graph.find? fullName := by
  cases hlisted : node.isListed with
  | true =>
      rw [find?_add_of_isListed graph hlisted,
        OrderedMap.lookup_singleton_of_ne (Ne.symm (h hlisted)), Option.or_none]
  | false => rw [find?_add_of_not_isListed graph hlisted]

theorem find?_add_self {graph : TypeGraph} {node : Node} (hlisted : node.isListed = true)
    (hnone : graph.find? node.fullName = none) :
    (graph.add node).find? node.fullName = some graph.types.length := by
  rw [find?_add_of_isListed graph hlisted, hnone, Option.none_or, List.lookup_cons_self]

/-- What is found after a type is added was found before, or it is that type. -/
theorem find?_add_cases {graph : TypeGraph} {node : Node} {fullName : String} {id : TypeId}
    (h : (graph.add node).find? fullName = some id) :
    graph.find? fullName = some id ∨
      (node.isListed = true ∧ node.fullName = fullName ∧ id = graph.types.length) := by
  cases hold : graph.find? fullName with
  | some other => exact .inl ((find?_add_of_some hold node).symm.trans h)
  | none =>
      right
      by_cases hself : node.isListed = true ∧ node.fullName = fullName
      · obtain ⟨hlisted, rfl⟩ := hself
        exact ⟨hlisted, rfl, Option.some.inj (h.symm.trans (find?_add_self hlisted hold))⟩
      · have hsame : (graph.add node).find? fullName = graph.find? fullName :=
          find?_add_of_ne fun hlisted hname => hself ⟨hlisted, hname⟩
        exact absurd ((hsame.trans hold).symm.trans h) (by simp)

/-- Where the name of the new type is found, replacing a type is a change in its place. -/
theorem replace_eq_modify {graph : TypeGraph} {id other : TypeId} {node : Node}
    {change : Node → Node} (hnode : graph.get? id = some node)
    (hname : graph.find? (change node).fullName = some other) :
    graph.replace id (change node) = graph.modify id change := by
  have hcontains : graph.byFullName.contains (change node).fullName = true := by
    rw [OrderedMap.contains, ← find?, hname, Option.isSome_some]
  rw [replace, OrderedMap.insertIfNew, if_pos hcontains, modify]
  congr 1
  apply List.ext_getElem?
  intro place
  rw [List.getElem?_set, List.getElem?_modify]
  by_cases hid : id = place
  · subst hid
    rw [← get?, hnode]
    simp [lt_of_get? hnode]
  · simp [hid]

/-! ### Names -/

/-- The full names of the types, each with whether the type is listed under it. -/
def names (graph : TypeGraph) : List (Bool × String) :=
  graph.labels.map fun label => (label.isListed, label.fullName)

@[simp] theorem names_length (graph : TypeGraph) : graph.names.length = graph.types.length := by
  simp [names]

private theorem fullNameOf_eq_names (graph : TypeGraph) (id : TypeId) :
    graph.fullNameOf id = ((graph.names[id]?).map Prod.snd).getD "" := by
  rw [fullNameOf, names, List.getElem?_map, labels_getElem?, Option.map_map, Option.map_map]
  rfl

theorem fullNameOf_of_names_append {graph next : TypeGraph} {id : TypeId}
    {new : List (Bool × String)} (h : next.names = graph.names ++ new)
    (hid : id < graph.types.length) : next.fullNameOf id = graph.fullNameOf id := by
  rw [fullNameOf_eq_names, fullNameOf_eq_names, h,
    List.getElem?_append_left (by rw [names_length]; exact hid)]

@[simp] theorem names_add (graph : TypeGraph) (node : Node) :
    (graph.add node).names = graph.names ++ [(node.isListed, node.fullName)] := by
  simp [names, Node.label]

/-- The first of the given names that is listed and is the given one. -/
def firstListed? (names : List (Bool × String)) (fullName : String) : Option TypeId :=
  names.findIdx? fun name => name.1 && name.2 = fullName

/-- The index of full names is right: a name stands for the first type that is listed under it. -/
def Indexed (graph : TypeGraph) : Prop :=
  ∀ fullName, graph.find? fullName = firstListed? graph.names fullName

/-- A type that is found has the name that it was found by. -/
theorem Indexed.exists_node {graph : TypeGraph} (h : graph.Indexed) {fullName : String}
    {id : TypeId} (hid : graph.find? fullName = some id) :
    ∃ node, graph.get? id = some node ∧ node.isListed = true ∧ node.fullName = fullName := by
  rw [h, firstListed?, names, labels, List.map_map, List.findIdx?_map] at hid
  obtain ⟨hlt, hnode, -⟩ := List.findIdx?_eq_some_iff_getElem.mp hid
  rw [Function.comp_apply, Bool.and_eq_true, decide_eq_true_iff] at hnode
  exact ⟨graph.types[id], List.getElem?_eq_getElem hlt, hnode.1, hnode.2⟩

theorem Indexed.label {graph : TypeGraph} (h : graph.Indexed) {fullName : String} {id : TypeId}
    {label : Label} (hid : graph.find? fullName = some id)
    (hlabel : graph.labels[id]? = some label) :
    label.isListed = true ∧ label.fullName = fullName := by
  obtain ⟨node, hnode, hlisted, hname⟩ := h.exists_node hid
  rw [labels_getElem?, hnode] at hlabel
  obtain rfl := Option.some.inj hlabel
  exact ⟨hlisted, hname⟩

theorem Indexed.find?_ne_none {graph : TypeGraph} (h : graph.Indexed) {id : TypeId} {label : Label}
    (hlabel : graph.labels[id]? = some label) (hlisted : label.isListed = true) :
    graph.find? label.fullName ≠ none := by
  rw [h, firstListed?, Ne, List.findIdx?_eq_none_iff]
  intro hnone
  have hmem : (label.isListed, label.fullName) ∈ graph.names :=
    List.mem_map_of_mem (List.mem_of_getElem? hlabel)
  simpa [hlisted] using hnone _ hmem

theorem Indexed.congr {graph next : TypeGraph} (h : graph.Indexed)
    (hindex : next.byFullName = graph.byFullName) (hnames : next.names = graph.names) :
    next.Indexed := by
  intro fullName
  rw [find?, hindex, hnames]
  exact h fullName

theorem Indexed.add {graph : TypeGraph} (h : graph.Indexed) (node : Node) :
    (graph.add node).Indexed := by
  intro fullName
  rw [firstListed?, names_add, List.findIdx?_append, ← firstListed?, ← h fullName, names_length]
  cases hlisted : node.isListed with
  | false =>
      rw [find?_add_of_not_isListed graph hlisted]
      simp
  | true =>
      rw [find?_add_of_isListed graph hlisted]
      by_cases hname : node.fullName = fullName
      · simp [hname]
      · rw [OrderedMap.lookup_singleton_of_ne (Ne.symm hname)]
        simp [hname]

theorem indexed_empty : ({} : TypeGraph).Indexed := fun _ => rfl

/-- The second graph comes later: its index is right, and no name of the first left its place. -/
structure Continues (graph next : TypeGraph) : Prop where
  indexed : next.Indexed
  names : ∃ new, next.names = graph.names ++ new

theorem Indexed.continues {graph next : TypeGraph} (h : graph.Indexed)
    (hindex : next.byFullName = graph.byFullName) (hnames : next.names = graph.names) :
    Continues graph next :=
  ⟨h.congr hindex hnames, [], hnames.trans (List.append_nil _).symm⟩

theorem Indexed.continues_add {graph : TypeGraph} (h : graph.Indexed) (node : Node) :
    Continues graph (graph.add node) :=
  ⟨h.add node, _, names_add graph node⟩

theorem Continues.trans {graph middle next : TypeGraph} (h : Continues graph middle)
    (hnext : Continues middle next) : Continues graph next := by
  obtain ⟨new, hnew⟩ := h.names
  obtain ⟨more, hmore⟩ := hnext.names
  exact ⟨hnext.indexed, new ++ more, by rw [hmore, hnew, List.append_assoc]⟩

theorem Continues.length_le {graph next : TypeGraph} (h : Continues graph next) :
    graph.types.length ≤ next.types.length := by
  obtain ⟨new, hnew⟩ := h.names
  rw [← names_length, ← names_length, hnew, List.length_append]
  exact Nat.le_add_right _ _

theorem Continues.fullNameOf_eq {graph next : TypeGraph} (h : Continues graph next) {id : TypeId}
    (hid : id < graph.types.length) : next.fullNameOf id = graph.fullNameOf id := by
  obtain ⟨new, hnew⟩ := h.names
  exact fullNameOf_of_names_append hnew hid

theorem Continues.find?_some {graph next : TypeGraph} (h : Continues graph next)
    (hindexed : graph.Indexed) {fullName : String} {id : TypeId}
    (hid : graph.find? fullName = some id) : next.find? fullName = some id := by
  obtain ⟨new, hnew⟩ := h.names
  rw [hindexed, firstListed?] at hid
  rw [h.indexed, firstListed?, hnew, List.findIdx?_append, hid, Option.some_or]

end XamlAssist.TypeGraph
