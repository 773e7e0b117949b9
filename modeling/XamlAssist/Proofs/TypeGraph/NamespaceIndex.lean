import Mathlib.Data.Prod.Lex
import Mathlib.Logic.Relation
import XamlAssist.Proofs.TypeGraph.Registration

/-!
# From a full name back to its namespaces

A graph keeps for each full name the namespaces that a type of that name is reachable through. Main
statements: `History.current`, whatever is done to a graph, each of these namespaces has such a
type, they stand in the order of their registration, and the preferred one is the best of them; and
`KeepsNamespaces.changes`, no namespace is missing as long as all registrations are harmless.
-/

namespace XamlAssist

/-! ### Keys -/

namespace OrderedMap

variable {κ α : Type} [BEq κ] [LawfulBEq κ]

private theorem keys_insert (map : OrderedMap κ α) (key : κ) (value : α) :
    (map.insert key value).keys = insertNew map.keys key := by
  obtain ⟨entries⟩ := map
  unfold insert keys insertNew
  induction entries with
  | nil => rfl
  | cons entry entries ih =>
      rw [insertEntry]
      by_cases hkey : key = entry.1
      · simp [hkey]
      · have hne : (key == entry.1) = false := beq_eq_false_iff_ne.mpr hkey
        simp only [hne, Bool.false_eq_true, if_false, List.map_cons, List.contains_cons,
          Bool.false_or, ih]
        split <;> rfl

private theorem get?_eq_some_of_mem {map : OrderedMap κ α} (h : map.keys.Nodup) {key : κ}
    {value : α} (hmem : (key, value) ∈ map.entries) : map.get? key = some value := by
  obtain ⟨before, after, heq⟩ := List.append_of_mem hmem
  refine List.lookup_eq_some_iff.mpr ⟨before, after, heq, fun entry hentry => ?_⟩
  rw [keys, heq, List.map_append, List.nodup_append] at h
  have hne := h.2.2 entry.1 (List.mem_map_of_mem hentry) key (by simp)
  exact bne_iff_ne.mpr hne.symm

private theorem mem_values_iff {map : OrderedMap κ α} (h : map.keys.Nodup) {value : α} :
    value ∈ map.values ↔ ∃ key, map.get? key = some value := by
  constructor
  · intro hvalue
    obtain ⟨entry, hentry, rfl⟩ := List.mem_map.mp hvalue
    exact ⟨entry.1, get?_eq_some_of_mem h hentry⟩
  · rintro ⟨key, hkey⟩
    exact List.mem_map.mpr ⟨(key, value), mem_entries_of_get? hkey, rfl⟩

end OrderedMap

namespace TypeGraph

/-! ### Registering -/

/-- No simple name stands twice in a namespace. -/
def Tidy (graph : TypeGraph) : Prop :=
  ∀ space names, graph.namespaces.get? space = some names → names.keys.Nodup

/-- The type that is no longer reachable through a namespace when a name in it gets another type. -/
def displaced? (graph : TypeGraph) (space name : String) (id : TypeId) : Option TypeId :=
  (graph.lookup? space name).filter fun previous =>
    previous ≠ id &&
      !(((graph.namespaces.get? space).getD {}).insert name id).values.contains previous

/-- What is left of the namespaces of a full name when a name in a namespace gets another type. -/
def keptSpaces (graph : TypeGraph) (space name : String) (id : TypeId) (fullName : String) :
    List String :=
  if (graph.displaced? space name id).map graph.fullNameOf = some fullName then
    (graph.namespacesOf fullName).filter (· ≠ space)
  else graph.namespacesOf fullName

variable {graph next : TypeGraph} {space name : String} {id : TypeId}

@[simp] theorem get?_getD_namespaces (graph : TypeGraph) (space name : String) :
    ((graph.namespaces.get? space).getD {}).get? name = graph.lookup? space name := by
  rw [lookup?]
  cases graph.namespaces.get? space with
  | none => rfl
  | some names => rfl

private theorem Tidy.keys_nodup (h : graph.Tidy) (space : String) :
    ((graph.namespaces.get? space).getD {}).keys.Nodup := by
  cases hnames : graph.namespaces.get? space with
  | none => exact List.nodup_nil
  | some names => exact h space names hnames

@[simp] theorem lookup?_register_self (graph : TypeGraph) (space name : String) (id : TypeId) :
    (graph.register space name id).lookup? space name = some id := by
  simp [lookup?, register]

private theorem lookup?_register_of_ne {other simple : String} (h : other ≠ space ∨ simple ≠ name) :
    (graph.register space name id).lookup? other simple = graph.lookup? other simple := by
  unfold lookup? register
  by_cases hspace : other = space
  · subst hspace
    have hname : simple ≠ name := h.resolve_left (· rfl)
    rw [OrderedMap.get?_insert_self, Option.bind_some, OrderedMap.get?_insert_of_ne _ hname]
    exact get?_getD_namespaces graph other simple
  · rw [OrderedMap.get?_insert_of_ne _ hspace]

/-- A type is displaced if the name was its last one in the namespace. -/
theorem displaced?_eq_some_iff (h : graph.Tidy) {previous : TypeId} :
    graph.displaced? space name id = some previous ↔
      graph.lookup? space name = some previous ∧ previous ≠ id ∧
        ∀ other, (graph.register space name id).lookup? space other ≠ some previous := by
  have hkeys : (((graph.namespaces.get? space).getD {}).insert name id).keys.Nodup := by
    rw [OrderedMap.keys_insert]
    exact nodup_insertNew (h.keys_nodup space) name
  have hvalues : previous ∈ (((graph.namespaces.get? space).getD {}).insert name id).values ↔
      ∃ other, (graph.register space name id).lookup? space other = some previous := by
    rw [OrderedMap.mem_values_iff hkeys]
    simp [lookup?, register]
  simp [displaced?, Option.filter_eq_some_iff, hvalues]

private theorem get?_forget_getD (reachable : OrderedMap String (List String))
    (fullName space other : String) :
    ((forget reachable fullName space).get? other).getD [] =
      if fullName = other then ((reachable.get? other).getD []).filter (· ≠ space)
      else (reachable.get? other).getD [] := by
  unfold forget
  by_cases hname : fullName = other
  · subst hname
    cases hspaces : reachable.get? fullName with
    | none => simp [hspaces]
    | some spaces => simp
  · cases reachable.get? fullName with
    | none => simp [hname]
    | some spaces =>
        simp only [hname, if_false]
        rw [OrderedMap.get?_insert_of_ne _ (Ne.symm hname)]

/-- What is left of the inverse index when a name in a namespace gets another type. -/
def withoutDisplaced (graph : TypeGraph) (space name : String) (id : TypeId) :
    OrderedMap String (List String) :=
  match graph.displaced? space name id with
  | none => graph.reachable
  | some previous => forget graph.reachable (graph.fullNameOf previous) space

private theorem get?_withoutDisplaced (graph : TypeGraph) (space name : String) (id : TypeId)
    (fullName : String) :
    ((graph.withoutDisplaced space name id).get? fullName).getD [] =
      graph.keptSpaces space name id fullName := by
  unfold withoutDisplaced keptSpaces namespacesOf
  cases graph.displaced? space name id with
  | none => simp
  | some previous => simp [get?_forget_getD]

private theorem reachable_register (graph : TypeGraph) (space name : String) (id : TypeId) :
    (graph.register space name id).reachable =
      (graph.withoutDisplaced space name id).insert (graph.fullNameOf id)
        (insertNew (graph.keptSpaces space name id (graph.fullNameOf id)) space) := by
  rw [← get?_withoutDisplaced]
  unfold register withoutDisplaced displaced?
  simp only [get?_getD_namespaces]
  cases graph.lookup? space name with
  | none => rfl
  | some previous =>
      simp only [Option.filter_some]
      cases previous ≠ id &&
        !(((graph.namespaces.get? space).getD {}).insert name id).values.contains previous <;> rfl

private theorem namespacesOf_register_eq (graph : TypeGraph) (space name : String) (id : TypeId)
    (fullName : String) :
    (graph.register space name id).namespacesOf fullName =
      if fullName = graph.fullNameOf id then
        insertNew (graph.keptSpaces space name id fullName) space
      else graph.keptSpaces space name id fullName := by
  rw [namespacesOf, reachable_register]
  by_cases hname : fullName = graph.fullNameOf id
  · rw [hname, OrderedMap.get?_insert_self, Option.getD_some, if_pos rfl]
  · rw [OrderedMap.get?_insert_of_ne _ hname, get?_withoutDisplaced, if_neg hname]

private theorem keptSpaces_sublist (graph : TypeGraph) (space name : String) (id : TypeId)
    (fullName : String) :
    (graph.keptSpaces space name id fullName).Sublist (graph.namespacesOf fullName) := by
  unfold keptSpaces
  split
  · exact List.filter_sublist
  · exact .refl _

private theorem mem_keptSpaces {fullName other : String} :
    other ∈ graph.keptSpaces space name id fullName ↔ other ∈ graph.namespacesOf fullName ∧
      ¬ ((graph.displaced? space name id).map graph.fullNameOf = some fullName ∧
        other = space) := by
  unfold keptSpaces
  split
  · next h => simp [h]
  · next h => simp [h]

/-- The namespaces of a full name after a registration. -/
theorem mem_namespacesOf_register {fullName other : String} :
    other ∈ (graph.register space name id).namespacesOf fullName ↔
      (fullName = graph.fullNameOf id ∧ other = space) ∨
        other ∈ graph.keptSpaces space name id fullName := by
  rw [namespacesOf_register_eq]
  split
  · next hname => simp [mem_insertNew, hname, or_comm]
  · next hname => simp [hname]

theorem Tidy.register (h : graph.Tidy) (space name : String) (id : TypeId) :
    (graph.register space name id).Tidy := by
  intro other names hnames
  rw [TypeGraph.register] at hnames
  by_cases hspace : other = space
  · subst hspace
    rw [OrderedMap.get?_insert_self] at hnames
    obtain rfl := Option.some.inj hnames
    rw [OrderedMap.keys_insert]
    exact nodup_insertNew (h.keys_nodup other) name
  · rw [OrderedMap.get?_insert_of_ne _ hspace] at hnames
    exact h other names hnames

/-! ### What is done to a graph -/

/-- The full names of the types. -/
def fullNames (graph : TypeGraph) : List String := graph.types.map Node.fullName

theorem fullNames_eq_names (graph : TypeGraph) : graph.fullNames = graph.names.map Prod.snd := by
  rw [fullNames, names, labels, List.map_map, List.map_map]
  rfl

/-- What is done to a graph: a type is added, whether it is found by its name or not, types are
replaced by others with the same full names, or a type that is there is made reachable, if that is
permitted. -/
inductive ChangeBy (permitted : TypeGraph → String → String → TypeId → Prop) :
    TypeGraph → TypeGraph → Prop
  | add {graph : TypeGraph} (node : Node) : ChangeBy permitted graph (graph.add node)
  | replace {graph next : TypeGraph} : next.namespaces = graph.namespaces →
      next.reachable = graph.reachable → next.fullNames = graph.fullNames →
      ChangeBy permitted graph next
  | register {graph : TypeGraph} {space name : String} {id : TypeId} :
      id < graph.types.length → permitted graph space name id →
      ChangeBy permitted graph (graph.register space name id)

/-- The second graph is made from the first by changes with permitted registrations. -/
abbrev ChangesBy (permitted : TypeGraph → String → String → TypeId → Prop) :
    TypeGraph → TypeGraph → Prop :=
  Relation.ReflTransGen (ChangeBy permitted)

/-- Any change. -/
abbrev Change : TypeGraph → TypeGraph → Prop := ChangeBy fun _ _ _ _ => True

/-- The second graph is made from the first by any changes. -/
abbrev Changes : TypeGraph → TypeGraph → Prop := Relation.ReflTransGen Change

theorem ChangesBy.mono {permitted wider : TypeGraph → String → String → TypeId → Prop}
    (h : ChangesBy permitted graph next)
    (hwider : ∀ graph space name id, permitted graph space name id → wider graph space name id) :
    ChangesBy wider graph next := by
  refine Relation.ReflTransGen.mono (fun graph next hchange => ?_) _ _ h
  cases hchange with
  | add node => exact .add node
  | replace hnamespaces hreachable hnames => exact .replace hnamespaces hreachable hnames
  | register hid hpermitted => exact .register hid (hwider _ _ _ _ hpermitted)

theorem ChangesBy.changes {permitted : TypeGraph → String → String → TypeId → Prop}
    (h : ChangesBy permitted graph next) : Changes graph next :=
  h.mono fun _ _ _ _ _ => trivial

/-- The states that a graph went through since it was empty, the latest first. -/
inductive History : List TypeGraph → Prop
  | start : History [{}]
  | change {graph next : TypeGraph} {earlier : List TypeGraph} :
      History (graph :: earlier) → Change graph next → History (next :: graph :: earlier)

theorem exists_history (h : Changes {} graph) : ∃ earlier, History (graph :: earlier) := by
  induction h with
  | refl => exact ⟨[], .start⟩
  | tail _ hlast ih =>
      obtain ⟨earlier, hearlier⟩ := ih
      exact ⟨_, hearlier.change hlast⟩

private theorem Change.fullNames_append (h : Change graph next) :
    ∃ new, next.fullNames = graph.fullNames ++ new := by
  cases h with
  | add node => exact ⟨[node.fullName], by simp [fullNames, TypeGraph.add]⟩
  | replace _ _ hnames => exact ⟨[], by rw [hnames, List.append_nil]⟩
  | register _ _ => exact ⟨[], (List.append_nil _).symm⟩

private theorem Changes.fullNames_append (h : Changes graph next) :
    ∃ new, next.fullNames = graph.fullNames ++ new := by
  induction h with
  | refl => exact ⟨[], (List.append_nil _).symm⟩
  | tail _ hlast ih =>
      obtain ⟨new, hnew⟩ := ih
      obtain ⟨more, hmore⟩ := Change.fullNames_append hlast
      exact ⟨new ++ more, by rw [hmore, hnew, List.append_assoc]⟩

private theorem fullNameOf_eq_fullNames (graph : TypeGraph) (id : TypeId) :
    graph.fullNameOf id = (graph.fullNames[id]?).getD "" := by
  rw [fullNameOf, fullNames, List.getElem?_map]
  rfl

theorem Changes.fullNameOf_eq (h : Changes graph next) (hid : id < graph.types.length) :
    next.fullNameOf id = graph.fullNameOf id := by
  obtain ⟨new, hnew⟩ := h.fullNames_append
  rw [fullNameOf_eq_fullNames, fullNameOf_eq_fullNames, hnew,
    List.getElem?_append_left (by rw [fullNames, List.length_map]; exact hid)]

theorem Changes.length_le (h : Changes graph next) :
    graph.types.length ≤ next.types.length := by
  obtain ⟨new, hnew⟩ := h.fullNames_append
  have hlength := congrArg List.length hnew
  simp only [fullNames, List.length_map, List.length_append] at hlength
  omega

/-! ### Namespaces have the types that they are kept for -/

/-- A type with the full name can be looked up in the namespace. -/
def Shows (graph : TypeGraph) (space fullName : String) : Prop :=
  ∃ name id node, graph.lookup? space name = some id ∧ graph.get? id = some node ∧
    node.fullName = fullName

/-- No namespace is kept for a full name without a type of that name. -/
structure Fresh (graph : TypeGraph) : Prop where
  tidy : graph.Tidy
  shows : ∀ {fullName space : String}, space ∈ graph.namespacesOf fullName →
    graph.Shows space fullName

private theorem fresh_empty : Fresh {} where
  tidy := fun _ _ h => absurd h (by simp [OrderedMap.get?])
  shows := fun h => absurd h (by simp [namespacesOf, OrderedMap.get?])

theorem Fresh.add (h : graph.Fresh) (node : Node) : (graph.add node).Fresh where
  tidy := h.tidy
  shows := by
    intro fullName space hspace
    obtain ⟨name, id, old, hid, hold, hname⟩ := h.shows hspace
    exact ⟨name, id, old, hid, get?_add_of_some hold node, hname⟩

theorem Fresh.replace (h : graph.Fresh) (hnamespaces : next.namespaces = graph.namespaces)
    (hreachable : next.reachable = graph.reachable) (hnames : next.fullNames = graph.fullNames) :
    next.Fresh where
  tidy := by
    unfold Tidy
    rw [hnamespaces]
    exact h.tidy
  shows := by
    intro fullName space hspace
    rw [namespacesOf, hreachable] at hspace
    obtain ⟨name, id, old, hid, hold, hname⟩ := h.shows hspace
    obtain ⟨new, hnew, hfull⟩ := exists_get?_of_map_eq hnames hold
    rw [lookup?, ← hnamespaces] at hid
    exact ⟨name, id, new, hid, hnew, hfull.trans hname⟩

/-- The type of a name that is given away is shown under another name, or it was displaced. -/
theorem Fresh.shows_register (h : graph.Fresh) (hid : id < graph.types.length)
    {fullName other : String} (hother : graph.Shows other fullName)
    (hkept : ¬ ((graph.displaced? space name id).map graph.fullNameOf = some fullName ∧
      other = space)) : (graph.register space name id).Shows other fullName := by
  obtain ⟨simple, previous, node, hprevious, hnode, hname⟩ := hother
  by_cases hplace : other ≠ space ∨ simple ≠ name
  · exact ⟨simple, previous, node, (lookup?_register_of_ne hplace).trans hprevious, hnode, hname⟩
  · simp only [not_or, not_not] at hplace
    obtain ⟨rfl, rfl⟩ := hplace
    by_cases hsame : previous = id
    · subst hsame
      exact ⟨simple, previous, node, lookup?_register_self graph other simple previous, hnode,
        hname⟩
    · have hstays : graph.displaced? other simple id ≠ some previous := by
        intro hdisplaced
        refine hkept ⟨?_, rfl⟩
        rw [hdisplaced, Option.map_some, fullNameOf_of_get? hnode, hname]
      rw [Ne, displaced?_eq_some_iff h.tidy] at hstays
      simp only [hprevious, hsame, ne_eq, not_false_eq_true, true_and, not_forall,
        not_not] at hstays
      obtain ⟨still, hstill⟩ := hstays
      exact ⟨still, previous, node, hstill, hnode, hname⟩

theorem Fresh.register (h : graph.Fresh) (space name : String) (hid : id < graph.types.length) :
    (graph.register space name id).Fresh where
  tidy := h.tidy.register space name id
  shows := by
    intro fullName other hother
    rcases mem_namespacesOf_register.mp hother with ⟨rfl, rfl⟩ | hkept
    · have hnode : graph.get? id = some graph.types[id] := List.getElem?_eq_getElem hid
      exact ⟨name, id, _, lookup?_register_self graph other name id, hnode,
        (fullNameOf_of_get? hnode).symm⟩
    · obtain ⟨hmem, hkept⟩ := mem_keptSpaces.mp hkept
      exact h.shows_register hid (h.shows hmem) hkept

theorem Change.fresh (hchange : Change graph next) (h : graph.Fresh) : next.Fresh := by
  cases hchange with
  | add node => exact h.add node
  | replace hnamespaces hreachable hnames => exact h.replace hnamespaces hreachable hnames
  | register hid _ => exact h.register _ _ hid

theorem History.fresh {graph : TypeGraph} {earlier : List TypeGraph}
    (h : History (graph :: earlier)) : graph.Fresh := by
  generalize hstates : graph :: earlier = states at h
  induction h generalizing graph earlier with
  | start =>
      obtain ⟨rfl, -⟩ := List.cons.inj hstates
      exact fresh_empty
  | change _ hchange ih =>
      obtain ⟨rfl, -⟩ := List.cons.inj hstates
      exact hchange.fresh (ih rfl)

/-! ### Types have the namespaces that show them -/

/-- Each name of a type with the full name is permitted, and the index has its namespace. -/
structure KeepsNamespaces (fullName : String) (mayName : String → TypeId → Prop)
    (graph : TypeGraph) :
    Prop where
  tidy : graph.Tidy
  lt : ∀ {space name : String} {id : TypeId}, graph.lookup? space name = some id →
    id < graph.types.length
  mayName : ∀ {space name : String} {id : TypeId}, graph.lookup? space name = some id →
    graph.fullNameOf id = fullName → mayName name id
  mem : ∀ {space name : String} {id : TypeId}, graph.lookup? space name = some id →
    graph.fullNameOf id = fullName → space ∈ graph.namespacesOf fullName

/-- A registration does not take a namespace from a full name while another type of that name is
left in it: all names of such types in the namespace are the one that is given away, or all of the
types are the same. -/
structure Harmless (fullName : String) (mayName : String → TypeId → Prop) (graph : TypeGraph)
    (space name : String) (id : TypeId) : Prop where
  own : graph.fullNameOf id = fullName → mayName name id
  others : graph.fullNameOf id ≠ fullName → ∀ {previous : TypeId},
    graph.lookup? space name = some previous → mayName name previous →
      ∀ {simple : String} {other : TypeId}, mayName simple other → simple = name ∨ other = previous

variable {fullName : String} {mayName : String → TypeId → Prop}

theorem KeepsNamespaces.weaken {wider : String → TypeId → Prop}
    (h : KeepsNamespaces fullName mayName graph)
    (hwider : ∀ name id, mayName name id → wider name id) : KeepsNamespaces fullName wider graph :=
  ⟨h.tidy, h.lt, fun hid hname => hwider _ _ (h.mayName hid hname), h.mem⟩

theorem KeepsNamespaces.keep (h : KeepsNamespaces fullName mayName graph)
    (hnamespaces : next.namespaces = graph.namespaces)
    (hreachable : next.reachable = graph.reachable) (hchanges : Changes graph next) :
    KeepsNamespaces fullName mayName next := by
  have hlookup (space name : String) : next.lookup? space name = graph.lookup? space name := by
    rw [lookup?, hnamespaces, lookup?]
  constructor
  · unfold Tidy
    rw [hnamespaces]
    exact h.tidy
  · intro space name id hid
    rw [hlookup] at hid
    exact Nat.lt_of_lt_of_le (h.lt hid) hchanges.length_le
  · intro space name id hid hname
    rw [hlookup] at hid
    rw [hchanges.fullNameOf_eq (h.lt hid)] at hname
    exact h.mayName hid hname
  · intro space name id hid hname
    rw [hlookup] at hid
    rw [hchanges.fullNameOf_eq (h.lt hid)] at hname
    rw [namespacesOf, hreachable]
    exact h.mem hid hname

theorem KeepsNamespaces.register (h : KeepsNamespaces fullName mayName graph)
    (hid : id < graph.types.length)
    (hharmless : Harmless fullName mayName graph space name id) :
    KeepsNamespaces fullName mayName (graph.register space name id) := by
  have hold {other simple : String} {found : TypeId}
      (hfound : (graph.register space name id).lookup? other simple = some found) :
      (other = space ∧ simple = name ∧ found = id) ∨
        (¬ (other = space ∧ simple = name) ∧ graph.lookup? other simple = some found) := by
    by_cases hplace : other = space ∧ simple = name
    · obtain ⟨rfl, rfl⟩ := hplace
      rw [lookup?_register_self] at hfound
      exact .inl ⟨rfl, rfl, (Option.some.inj hfound).symm⟩
    · rw [lookup?_register_of_ne (not_and_or.mp hplace)] at hfound
      exact .inr ⟨hplace, hfound⟩
  constructor
  · exact h.tidy.register space name id
  · intro other simple found hfound
    rcases hold hfound with ⟨-, -, rfl⟩ | ⟨-, hfound⟩
    · exact hid
    · exact h.lt hfound
  · intro other simple found hfound hname
    rcases hold hfound with ⟨-, rfl, rfl⟩ | ⟨-, hfound⟩
    · exact hharmless.own hname
    · exact h.mayName hfound hname
  · intro other simple found hfound hname
    rw [mem_namespacesOf_register]
    rcases hold hfound with ⟨rfl, rfl, rfl⟩ | ⟨hplace, hbefore⟩
    · exact .inl ⟨hname.symm, rfl⟩
    · by_cases hlost : (graph.displaced? space name id).map graph.fullNameOf = some fullName ∧
        other = space
      · obtain ⟨hdisplaced, rfl⟩ := hlost
        by_cases hown : graph.fullNameOf id = fullName
        · exact .inl ⟨hown.symm, rfl⟩
        · obtain ⟨previous, hprevious, hprevName⟩ := Option.map_eq_some_iff.mp hdisplaced
          obtain ⟨hprev, -, hgone⟩ := (displaced?_eq_some_iff h.tidy).mp hprevious
          rcases hharmless.others hown hprev (h.mayName hprev hprevName)
            (h.mayName hbefore hname) with rfl | rfl
          · exact absurd ⟨rfl, rfl⟩ hplace
          · exact absurd hfound (hgone simple)
      · exact .inr (mem_keptSpaces.mpr ⟨h.mem hbefore hname, hlost⟩)

/-- Harmless registrations keep the index complete for a full name. -/
theorem KeepsNamespaces.changes {permitted : TypeGraph → String → String → TypeId → Prop}
    {start last : TypeGraph} (h : KeepsNamespaces fullName mayName start)
    (hpermitted : ∀ {graph : TypeGraph} {space name : String} {id : TypeId},
      Changes graph last → id < graph.types.length → permitted graph space name id →
        Harmless fullName mayName graph space name id)
    (hchanges : ChangesBy permitted start graph) (hlast : Changes graph last) :
    KeepsNamespaces fullName mayName graph := by
  induction hchanges with
  | refl => exact h
  | @tail middle final _ hchange ih =>
      have hstep : Changes middle final := ChangesBy.changes (.single hchange)
      have hmiddle := ih (hstep.trans hlast)
      cases hchange with
      | add node => exact hmiddle.keep rfl rfl hstep
      | replace hnamespaces hreachable _ => exact hmiddle.keep hnamespaces hreachable hstep
      | register hid hallowed =>
          exact hmiddle.register hid (hpermitted (hstep.trans hlast) hid hallowed)

/-! ### Namespaces stand in the order of registration -/

/-- The namespace is kept for the full name in every one of the states. -/
def Stands (states : List TypeGraph) (fullName space : String) : Prop :=
  ∀ state ∈ states, space ∈ state.namespacesOf fullName

/-- The later namespace was put in by a registration before which the other one was there already,
and both have been there since. -/
def RegisteredBefore (states : List TypeGraph) (fullName space later : String) : Prop :=
  ∃ recent graph old name id, states = recent ++ graph.register later name id :: graph :: old ∧
    graph.fullNameOf id = fullName ∧ later ∉ graph.keptSpaces later name id fullName ∧
    Stands (recent ++ [graph.register later name id, graph]) fullName space ∧
    Stands (recent ++ [graph.register later name id]) fullName later

theorem RegisteredBefore.cons {states : List TypeGraph} {fullName space later : String}
    (h : RegisteredBefore states fullName space later)
    (hspace : space ∈ graph.namespacesOf fullName) (hlater : later ∈ graph.namespacesOf fullName) :
    RegisteredBefore (graph :: states) fullName space later := by
  obtain ⟨recent, before, old, name, id, rfl, hname, hnew, hstands, hstandsLater⟩ := h
  exact ⟨graph :: recent, before, old, name, id, rfl, hname, hnew,
    List.forall_mem_cons.mpr ⟨hspace, hstands⟩, List.forall_mem_cons.mpr ⟨hlater, hstandsLater⟩⟩

private theorem pairwise_registeredBefore_cons {states : List TypeGraph} {fullName : String}
    {spaces kept : List String} (h : spaces.Pairwise (RegisteredBefore states fullName))
    (hkept : kept.Sublist spaces) (hnext : ∀ space ∈ kept, space ∈ next.namespacesOf fullName) :
    kept.Pairwise (RegisteredBefore (next :: states) fullName) :=
  (h.sublist hkept).imp_of_mem fun hspace hlater hbefore =>
    hbefore.cons (hnext _ hspace) (hnext _ hlater)

private theorem Change.ordered (hchange : Change graph next) {earlier : List TypeGraph}
    {fullName : String}
    (h : (graph.namespacesOf fullName).Pairwise (RegisteredBefore (graph :: earlier) fullName)) :
    (next.namespacesOf fullName).Pairwise
      (RegisteredBefore (next :: graph :: earlier) fullName) := by
  cases hchange with
  | add node => exact pairwise_registeredBefore_cons h (.refl _) fun _ hspace => hspace
  | replace _ hreachable _ =>
      have hsame : next.namespacesOf fullName = graph.namespacesOf fullName := by
        rw [namespacesOf, hreachable, namespacesOf]
      rw [hsame]
      exact pairwise_registeredBefore_cons h (.refl _) fun _ hspace => hsame ▸ hspace
  | @register space name id _ _ =>
      have hkeptNext : ∀ other ∈ graph.keptSpaces space name id fullName,
          other ∈ (graph.register space name id).namespacesOf fullName :=
        fun other hother => mem_namespacesOf_register.mpr (.inr hother)
      have hkept := pairwise_registeredBefore_cons h
        (keptSpaces_sublist graph space name id fullName) hkeptNext
      rw [namespacesOf_register_eq]
      split
      · next hname =>
          unfold insertNew
          split
          · exact hkept
          · next hnew =>
            refine List.pairwise_append.mpr ⟨hkept, List.pairwise_singleton _ _, ?_⟩
            intro other hother last hlast
            obtain rfl := List.mem_singleton.mp hlast
            have hold := (keptSpaces_sublist graph last name id fullName).subset hother
            refine ⟨[], graph, earlier, name, id, rfl, hname.symm,
              fun hmem => hnew (List.contains_iff_mem.mpr hmem), ?_, ?_⟩
            · exact List.forall_mem_cons.mpr ⟨hkeptNext other hother,
                List.forall_mem_singleton.mpr hold⟩
            · exact List.forall_mem_singleton.mpr
                (mem_namespacesOf_register.mpr (.inl ⟨hname, rfl⟩))
      · exact hkept

private theorem History.ordered {earlier : List TypeGraph} (h : History (graph :: earlier))
    (fullName : String) :
    (graph.namespacesOf fullName).Pairwise (RegisteredBefore (graph :: earlier) fullName) := by
  generalize hstates : graph :: earlier = states at h
  induction h generalizing graph earlier with
  | start =>
      obtain ⟨rfl, -⟩ := List.cons.inj hstates
      exact List.Pairwise.nil
  | change _ hchange ih =>
      obtain ⟨rfl, rfl⟩ := List.cons.inj hstates
      exact hchange.ordered (ih rfl)

/-! ### The preferred namespace -/

/-- Spellings are compared by their classes and then by their lengths in bytes. -/
def spellingKey (space : String) : ℕ ×ₗ ℕ := toLex (spellingClass space, space.utf8ByteSize)

private theorem isBetterSpelling_iff (a b : String) :
    isBetterSpelling a b = true ↔ spellingKey a < spellingKey b := by
  simp [isBetterSpelling, spellingKey, Prod.Lex.toLex_lt_toLex]

/-- The spelling is the first of the best ones. -/
def IsFirstBest (best : String) (spaces : List String) : Prop :=
  ∃ before after, spaces = before ++ best :: after ∧
    (∀ other ∈ before, spellingKey best < spellingKey other) ∧
    ∀ other ∈ after, spellingKey best ≤ spellingKey other

private theorem IsFirstBest.le {best : String} {spaces : List String} (h : IsFirstBest best spaces)
    {other : String} (hother : other ∈ spaces) : spellingKey best ≤ spellingKey other := by
  obtain ⟨before, after, rfl, hbefore, hafter⟩ := h
  rcases List.mem_append.mp hother with hother | hother
  · exact (hbefore other hother).le
  · rcases List.mem_cons.mp hother with rfl | hother
    · exact le_refl _
    · exact hafter other hother

theorem IsFirstBest.concat {best : String} {spaces : List String} (h : IsFirstBest best spaces)
    (other : String) :
    IsFirstBest (if isBetterSpelling other best then other else best) (spaces ++ [other]) := by
  split
  · next hbetter =>
      have hlt := (isBetterSpelling_iff other best).mp hbetter
      exact ⟨spaces, [], rfl, fun space hspace => hlt.trans_le (h.le hspace), by simp⟩
  · next hworse =>
      rw [isBetterSpelling_iff, not_lt] at hworse
      obtain ⟨before, after, rfl, hbefore, hafter⟩ := h
      refine ⟨before, after ++ [other], by simp, hbefore, ?_⟩
      intro space hspace
      rcases List.mem_append.mp hspace with hspace | hspace
      · exact hafter space hspace
      · exact List.mem_singleton.mp hspace ▸ hworse

theorem IsFirstBest.foldl {best : String} {spaces : List String} (h : IsFirstBest best spaces)
    (rest : List String) :
    IsFirstBest
      (rest.foldl (fun best other => if isBetterSpelling other best then other else best) best)
      (spaces ++ rest) := by
  induction rest generalizing best spaces with
  | nil =>
      rw [List.append_nil]
      exact h
  | cons other rest ih =>
      have hrest := ih (h.concat other)
      rw [List.append_assoc, List.singleton_append] at hrest
      exact hrest

private theorem isFirstBest_of_bestSpelling? {spaces : List String} {best : String}
    (h : bestSpelling? spaces = some best) : IsFirstBest best spaces := by
  cases spaces with
  | nil => exact absurd h (by simp [bestSpelling?])
  | cons space spaces =>
      have hfirst : IsFirstBest space [space] := ⟨[], [], rfl, by simp, by simp⟩
      obtain rfl := Option.some.inj h
      exact hfirst.foldl spaces

private theorem bestSpelling?_eq_none_iff {spaces : List String} :
    bestSpelling? spaces = none ↔ spaces = [] := by
  cases spaces with
  | nil => simp [bestSpelling?]
  | cons space spaces => simp [bestSpelling?]

/-- What is kept for full names is up to date: each namespace shows a type of the name, and the
preferred namespace is the one with the best spelling that was registered first. -/
structure Current (states : List TypeGraph) (graph : TypeGraph) : Prop where
  shows : ∀ fullName, ∀ space ∈ graph.namespacesOf fullName, graph.Shows space fullName
  preferred : ∀ fullName space, graph.preferredNamespace? fullName = some space →
    graph.Shows space fullName ∧ space ∈ graph.namespacesOf fullName ∧
      ∀ other ∈ graph.namespacesOf fullName, spellingKey space ≤ spellingKey other ∧
        (other ≠ space → spellingKey other = spellingKey space →
          RegisteredBefore states fullName space other)
  isSome : ∀ fullName, graph.namespacesOf fullName ≠ [] →
    (graph.preferredNamespace? fullName).isSome = true

theorem History.current {earlier : List TypeGraph} (h : History (graph :: earlier)) :
    Current (graph :: earlier) graph where
  shows := fun _ _ hspace => h.fresh.shows hspace
  preferred := by
    intro fullName space hspace
    have hbest := isFirstBest_of_bestSpelling? hspace
    obtain ⟨before, after, heq, hbefore, -⟩ := id hbest
    have hmem : space ∈ graph.namespacesOf fullName := by
      rw [heq]
      exact List.mem_append_right before List.mem_cons_self
    refine ⟨h.fresh.shows hmem, hmem, fun other hother => ⟨hbest.le hother, ?_⟩⟩
    intro hne htie
    rw [heq] at hother
    have hordered := h.ordered fullName
    rw [heq, List.pairwise_append] at hordered
    rcases List.mem_append.mp hother with hother | hother
    · exact absurd htie (hbefore other hother).ne'
    · rcases List.mem_cons.mp hother with rfl | hother
      · exact absurd rfl hne
      · exact (List.pairwise_cons.mp hordered.2.1).1 other hother
  isSome := by
    intro fullName hspaces
    rw [Option.isSome_iff_ne_none, preferredNamespace?, Ne, bestSpelling?_eq_none_iff]
    exact hspaces

end TypeGraph

end XamlAssist
