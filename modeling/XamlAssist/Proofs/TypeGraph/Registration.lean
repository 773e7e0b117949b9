import XamlAssist.Proofs.TypeGraph.Closed

/-!
# Which types a graph makes reachable

A graph reaches only certain types if every name in its namespaces is that of such a type, and so is
every full name that it knows namespaces for. Making one of these types reachable keeps it so, and
so do types that are added.
-/

namespace XamlAssist.TypeGraph

variable {graph next : TypeGraph} {id : TypeId}

private theorem lookup?_register {space name other simple : String} {found : TypeId}
    (h : (graph.register space name id).lookup? other simple = some found) :
    found = id ∨ graph.lookup? other simple = some found := by
  unfold lookup? register at h
  by_cases hspace : other = space
  · subst hspace
    rw [OrderedMap.get?_insert_self, Option.bind_some] at h
    by_cases hname : simple = name
    · subst hname
      rw [OrderedMap.get?_insert_self] at h
      exact .inl (Option.some.inj h).symm
    · rw [OrderedMap.get?_insert_of_ne _ hname] at h
      right
      cases hnames : graph.namespaces.get? other with
      | none =>
          rw [hnames] at h
          exact absurd h (by simp [OrderedMap.get?])
      | some names =>
          rw [hnames] at h
          rw [lookup?, hnames]
          exact h
  · rw [OrderedMap.get?_insert_of_ne _ hspace] at h
    exact .inr h

private theorem get?_forget {reachable : OrderedMap String (List String)}
    {fullName space other : String}
    (h : ((forget reachable fullName space).get? other).getD [] ≠ []) :
    (reachable.get? other).getD [] ≠ [] := by
  unfold forget at h
  cases hspaces : reachable.get? fullName with
  | none =>
      rw [hspaces] at h
      exact h
  | some spaces =>
      rw [hspaces] at h
      dsimp only at h
      by_cases hname : other = fullName
      · subst hname
        rw [OrderedMap.get?_insert_self, Option.getD_some] at h
        rw [hspaces, Option.getD_some]
        rintro rfl
        exact h rfl
      · rw [OrderedMap.get?_insert_of_ne _ hname] at h
        exact h

private theorem namespacesOf_register {space name fullName : String}
    (h : (graph.register space name id).namespacesOf fullName ≠ []) :
    graph.fullNameOf id = fullName ∨ graph.namespacesOf fullName ≠ [] := by
  unfold namespacesOf register at h
  by_cases hname : fullName = graph.fullNameOf id
  · exact .inl hname.symm
  · rw [OrderedMap.get?_insert_of_ne _ hname] at h
    right
    split at h
    · exact h
    · split at h
      · exact get?_forget h
      · exact h

theorem types_foldl_register (name : String) (id : TypeId) (spaces : List String)
    (graph : TypeGraph) :
    (spaces.foldl (fun graph space => graph.register space name id) graph).types =
      graph.types := by
  induction spaces generalizing graph with
  | nil => rfl
  | cons space spaces ih => exact ih (graph.register space name id)

theorem byFullName_foldl_register (name : String) (id : TypeId) (spaces : List String)
    (graph : TypeGraph) :
    (spaces.foldl (fun graph space => graph.register space name id) graph).byFullName =
      graph.byFullName := by
  induction spaces generalizing graph with
  | nil => rfl
  | cons space spaces ih => exact ih (graph.register space name id)

theorem fullNameOf_of_get? {node : Node} (h : graph.get? id = some node) :
    graph.fullNameOf id = node.fullName := by
  rw [fullNameOf, h]
  rfl

/-! ### Reaching -/

/-- The graph has the allowed types, and no other type is reachable. -/
structure Reaches (allowed : TypeId → Prop) (graph : TypeGraph) : Prop where
  lt : ∀ {id : TypeId}, allowed id → id < graph.types.length
  lookup? : ∀ {space name : String} {id : TypeId}, graph.lookup? space name = some id → allowed id
  named : ∀ {fullName : String}, graph.namespacesOf fullName ≠ [] →
    ∃ id, allowed id ∧ graph.fullNameOf id = fullName

variable {allowed wider : TypeId → Prop}

theorem Reaches.register (h : Reaches allowed graph) (hid : allowed id) (space name : String) :
    Reaches allowed (graph.register space name id) where
  lt := h.lt
  lookup? := by
    intro space' name' found hfound
    rcases lookup?_register hfound with rfl | hfound
    · exact hid
    · exact h.lookup? hfound
  named := by
    intro fullName hspaces
    rcases namespacesOf_register hspaces with hname | hspaces
    · exact ⟨id, hid, hname⟩
    · exact h.named hspaces

theorem Reaches.append (h : Reaches allowed graph)
    (hnamespaces : next.namespaces = graph.namespaces)
    (hreachable : next.reachable = graph.reachable) {new : List (Bool × String)}
    (hnames : next.names = graph.names ++ new) : Reaches allowed next where
  lt := by
    intro id hid
    rw [← names_length, hnames, List.length_append, names_length]
    exact Nat.lt_add_right _ (h.lt hid)
  lookup? := by
    intro space name id hid
    rw [TypeGraph.lookup?, hnamespaces] at hid
    exact h.lookup? hid
  named := by
    intro fullName hspaces
    rw [namespacesOf, hreachable] at hspaces
    obtain ⟨id, hid, hname⟩ := h.named hspaces
    exact ⟨id, hid, (fullNameOf_of_names_append hnames (h.lt hid)).trans hname⟩

theorem Reaches.congr (h : Reaches allowed graph) (hnamespaces : next.namespaces = graph.namespaces)
    (hreachable : next.reachable = graph.reachable) (hlabels : next.labels = graph.labels) :
    Reaches allowed next := by
  refine @Reaches.append _ _ _ h hnamespaces hreachable [] ?_
  rw [names, names, hlabels, List.append_nil]

theorem Reaches.widen (h : Reaches allowed graph) (hle : ∀ id, allowed id → wider id)
    (hlt : ∀ id, wider id → id < graph.types.length) : Reaches wider graph where
  lt := hlt _
  lookup? := fun hid => hle _ (h.lookup? hid)
  named := by
    intro fullName hspaces
    obtain ⟨id, hid, hname⟩ := h.named hspaces
    exact ⟨id, hle id hid, hname⟩

theorem Reaches.foldl_register (h : Reaches allowed graph) (hid : allowed id) (name : String)
    (spaces : List String) :
    Reaches allowed (spaces.foldl (fun graph space => graph.register space name id) graph) := by
  induction spaces generalizing graph with
  | nil => exact h
  | cons space spaces ih => exact ih (h.register hid space name)

end XamlAssist.TypeGraph
