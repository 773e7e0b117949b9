import XamlAssist.Proofs.Conversion.Names

/-!
# Which type of a graph a type of the session is

A type of the session that was met has its handle on exactly one type of the graph. Main statement:
`Grows.get?`, a graph that grows keeps every type that has a handle as it is.
-/

namespace XamlAssist.Conversion

open TypeGraph

/-- The full names of the types of the seed. -/
def seedNames : List String := TypeGraph.seed.types.map Node.fullName

/-- Types of the session are told apart by their handles, and no two of them have the same full name
as a type of the seed. -/
structure Distinct (scope : Scope) : Prop where
  handles : ∀ a ∈ scope.session.types, ∀ b ∈ scope.session.types, a.handle = b.handle → a = b
  seeded : ∀ a ∈ scope.session.types, ∀ b ∈ scope.session.types, a.fullName = b.fullName →
    a.fullName ∈ seedNames → a = b

/-- The numbers of the types that were met are the places of their handles in the graph. -/
structure Identified (scope : Scope) (builder : Builder) : Prop where
  indexed : builder.graph.Indexed
  label_of_id : ∀ {handle : Handle} {id : TypeId}, builder.ids.lookup handle = some id →
    ∃ label, builder.graph.labels[id]? = some label ∧ label.handle = some handle
  id_of_label : ∀ {id : TypeId} {label : Label} {handle : Handle},
    builder.graph.labels[id]? = some label → label.handle = some handle →
      builder.ids.lookup handle = some id
  named : ∀ {id : TypeId} {label : Label} {handle : Handle},
    builder.graph.labels[id]? = some label → label.handle = some handle →
      ∃ type ∈ scope.session.types, type.handle = handle ∧ type.fullName = label.fullName
  builtin : ∀ {id : TypeId} {label : Label}, builder.graph.labels[id]? = some label →
    label.isBuiltin = true → label.fullName ∈ seedNames

variable {scope : Scope} {builder next : Builder}

theorem identified_seed (scope : Scope) : Identified scope {} := by
  have hhandle : ∀ label ∈ TypeGraph.seed.labels, label.handle = none := by decide +kernel
  have hnone {id : TypeId} {label : Label} {handle : Handle}
      (h : TypeGraph.seed.labels[id]? = some label) (hsome : label.handle = some handle) :
      False := by
    rw [hhandle label (List.mem_of_getElem? h)] at hsome
    exact Option.some_ne_none handle hsome.symm
  refine ⟨indexed_seed, fun h => absurd h (by simp), fun h hsome => (hnone h hsome).elim,
    fun h hsome => (hnone h hsome).elim, ?_⟩
  intro id label h _
  have hmem := List.mem_of_getElem? h
  obtain ⟨node, hnode, rfl⟩ := List.mem_map.mp hmem
  exact List.mem_map_of_mem hnode

theorem Identified.congr (h : Identified scope builder)
    (hlabels : next.graph.labels = builder.graph.labels) (hindexed : next.graph.Indexed)
    (hids : next.ids = builder.ids) : Identified scope next := by
  refine ⟨hindexed, ?_, ?_, ?_, ?_⟩
  · rw [hlabels, hids]; exact h.label_of_id
  · rw [hlabels, hids]; exact h.id_of_label
  · rw [hlabels]; exact h.named
  · rw [hlabels]; exact h.builtin

theorem Identified.append (h : Identified scope builder) {label : Label}
    (hhandle : label.handle = none) (hbuiltin : label.isBuiltin = false)
    (hlabels : next.graph.labels = builder.graph.labels ++ [label])
    (hindexed : next.graph.Indexed) (hids : next.ids = builder.ids) : Identified scope next := by
  have hold {id : TypeId} {other : Label} (hother : next.graph.labels[id]? = some other) :
      builder.graph.labels[id]? = some other ∨ other = label := by
    rw [hlabels, List.getElem?_append] at hother
    split at hother
    · exact .inl hother
    · exact .inr (List.mem_singleton.mp (List.mem_of_getElem? hother))
  refine ⟨hindexed, ?_, ?_, ?_, ?_⟩
  · intro handle id hid
    rw [hids] at hid
    obtain ⟨other, hother, hsome⟩ := h.label_of_id hid
    refine ⟨other, ?_, hsome⟩
    rw [hlabels, List.getElem?_append_left (List.getElem?_eq_some_iff.mp hother).1, hother]
  · intro id other handle hother hsome
    rw [hids]
    rcases hold hother with hother | rfl
    · exact h.id_of_label hother hsome
    · exact absurd (hhandle.symm.trans hsome) (by simp)
  · intro id other handle hother hsome
    rcases hold hother with hother | rfl
    · exact h.named hother hsome
    · exact absurd (hhandle.symm.trans hsome) (by simp)
  · intro id other hother hsome
    rcases hold hother with hother | rfl
    · exact h.builtin hother hsome
    · exact absurd (hbuiltin.symm.trans hsome) (by simp)

theorem Identified.meet (h : Identified scope builder) {type : SessionType} {id : TypeId}
    {isBuiltin : Bool} (htype : type ∈ scope.session.types)
    (hnew : builder.ids.lookup type.handle = none)
    (hself : next.graph.labels[id]? = some (metLabel type isBuiltin))
    (hothers : ∀ other, id ≠ other → next.graph.labels[other]? = builder.graph.labels[other]?)
    (hfree : ∀ label, builder.graph.labels[id]? = some label → label.handle = none)
    (hbuiltin : isBuiltin = true → type.fullName ∈ seedNames) (hindexed : next.graph.Indexed)
    (hids : next.ids = (type.handle, id) :: builder.ids) : Identified scope next := by
  have hold {other : TypeId} {label : Label} (hlabel : next.graph.labels[other]? = some label) :
      (id = other ∧ label = metLabel type isBuiltin) ∨
        builder.graph.labels[other]? = some label := by
    by_cases hid : id = other
    · subst hid
      exact .inl ⟨rfl, (Option.some.inj (hself.symm.trans hlabel)).symm⟩
    · exact .inr ((hothers other hid).symm.trans hlabel)
  refine ⟨hindexed, ?_, ?_, ?_, ?_⟩
  · intro handle other hother
    rw [hids, List.lookup_cons] at hother
    split at hother
    · next heq =>
        obtain rfl := Option.some.inj hother
        exact ⟨_, hself, congrArg some (eq_of_beq heq).symm⟩
    · obtain ⟨label, hlabel, hsome⟩ := h.label_of_id hother
      have hne : id ≠ other := by
        rintro rfl
        exact Option.some_ne_none _ (hsome.symm.trans (hfree label hlabel))
      exact ⟨label, (hothers other hne).trans hlabel, hsome⟩
  · intro other label handle hlabel hsome
    rw [hids, List.lookup_cons]
    rcases hold hlabel with ⟨rfl, rfl⟩ | hlabel
    · obtain rfl := Option.some.inj hsome
      rw [beq_self_eq_true]
    · have hlookup := h.id_of_label hlabel hsome
      have hne : (handle == type.handle) = false := by
        rw [beq_eq_false_iff_ne]
        rintro rfl
        exact Option.some_ne_none _ (hlookup.symm.trans hnew)
      rw [hne, hlookup]
  · intro other label handle hlabel hsome
    rcases hold hlabel with ⟨rfl, rfl⟩ | hlabel
    · exact ⟨type, htype, Option.some.inj hsome, rfl⟩
    · exact h.named hlabel hsome
  · intro other label hlabel htrue
    rcases hold hlabel with ⟨rfl, rfl⟩ | hlabel
    · exact hbuiltin htrue
    · exact h.builtin hlabel htrue

/-- A place of the seed that a type would take over has no handle yet. -/
theorem Identified.handle_eq_none (h : Identified scope builder) (hdistinct : Distinct scope)
    {type : SessionType} {id : TypeId} {label : Label} (htype : type ∈ scope.session.types)
    (hnew : builder.ids.lookup type.handle = none) (hlabel : builder.graph.labels[id]? = some label)
    (hname : label.fullName = type.fullName) (hbuiltin : label.isBuiltin = true) :
    label.handle = none := by
  cases hhandle : label.handle with
  | none => rfl
  | some handle =>
      obtain ⟨other, hother, rfl, hfull⟩ := h.named hlabel hhandle
      have hseeded : other.fullName ∈ seedNames := hfull ▸ h.builtin hlabel hbuiltin
      obtain rfl := hdistinct.seeded other hother type htype (hfull.trans hname) hseeded
      exact absurd ((h.id_of_label hlabel hhandle).symm.trans hnew) (by simp)

theorem Identified.grow (h : Identified scope builder) (hdistinct : Distinct scope)
    (hgrow : Grow scope builder next) : Identified scope next := by
  have hindexed := (hgrow.continues h.indexed).indexed
  cases hgrow with
  | remember entry => exact h.congr rfl hindexed rfl
  | @add node hnode => exact h.append hnode.handle hnode.isBuiltin (labels_add _ node) hindexed rfl
  | @ensure type htype =>
      rcases ensure_cases builder type with ⟨id, -, heq⟩ |
        ⟨hnew, id, label, hlabel, hfind, hbuiltin, heq⟩ | ⟨hnew, -, heq⟩
      · rw [heq]
        exact h
      · have hname := (h.indexed.label hfind hlabel).2
        have hlabels := labels_takeOver builder.graph id type
        have hlt := (List.getElem?_eq_some_iff.mp hlabel).1
        rw [heq] at hindexed ⊢
        refine @Identified.meet _ _ _ h _ id true htype hnew ?_ ?_ ?_ ?_ hindexed rfl
        · rw [hlabels, List.getElem?_set_self hlt]
        · intro other hne
          rw [hlabels, List.getElem?_set_ne hne]
        · intro other hother
          obtain rfl := Option.some.inj (hlabel.symm.trans hother)
          exact h.handle_eq_none hdistinct htype hnew hlabel hname hbuiltin
        · exact fun _ => hname ▸ h.builtin hlabel hbuiltin
      · rw [heq] at hindexed ⊢
        refine @Identified.meet _ _ _ h _ builder.graph.types.length false htype hnew ?_ ?_ ?_ ?_
          hindexed rfl
        · rw [labels_getElem?, get?_add_length]
          rfl
        · exact fun other hne => labels_add_of_ne builder.graph _ hne
        · intro label hlabel
          have hlt := (List.getElem?_eq_some_iff.mp hlabel).1
          rw [labels_length] at hlt
          exact absurd hlt (Nat.lt_irrefl _)
        · exact fun hfalse => absurd hfalse (by simp)

/-! ### What growing keeps -/

theorem Grow.get? (hgrow : Grow scope builder next) (hidentified : Identified scope builder)
    (hdistinct : Distinct scope) {id : TypeId} {node : Node} {handle : Handle}
    (hnode : builder.graph.get? id = some node) (hhandle : node.handle = some handle) :
    next.graph.get? id = some node := by
  cases hgrow with
  | remember entry => exact hnode
  | @add new _ => exact get?_add_of_some hnode new
  | @ensure type htype =>
      rcases ensure_cases builder type with ⟨other, -, heq⟩ |
        ⟨hnew, other, label, hlabel, hfind, hbuiltin, heq⟩ | ⟨-, -, heq⟩
      · rw [heq]
        exact hnode
      · have hname := (hidentified.indexed.label hfind hlabel).2
        have hfree := hidentified.handle_eq_none hdistinct htype hnew hlabel hname hbuiltin
        have hne : other ≠ id := by
          rintro rfl
          rw [labels_getElem?, hnode] at hlabel
          obtain rfl := Option.some.inj hlabel
          exact Option.some_ne_none handle (hhandle.symm.trans hfree)
        rw [heq, get?_modify, hnode, Option.map_some, if_neg hne]
      · rw [heq]
        exact get?_add_of_some hnode _

theorem Identified.grows (h : Identified scope builder) (hdistinct : Distinct scope)
    (hgrows : Grows scope builder next) : Identified scope next := by
  induction hgrows with
  | refl => exact h
  | tail _ hlast ih => exact ih.grow hdistinct hlast

theorem Grows.get? (hgrows : Grows scope builder next) (hidentified : Identified scope builder)
    (hdistinct : Distinct scope) {id : TypeId} {node : Node} {handle : Handle}
    (hnode : builder.graph.get? id = some node) (hhandle : node.handle = some handle) :
    next.graph.get? id = some node := by
  induction hgrows with
  | refl => exact hnode
  | tail hfirst hlast ih =>
      exact hlast.get? (hidentified.grows hdistinct hfirst) hdistinct ih hhandle

end XamlAssist.Conversion
