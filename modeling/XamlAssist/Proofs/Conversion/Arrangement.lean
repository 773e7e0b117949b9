import XamlAssist.Proofs.Conversion.Identity
import XamlAssist.Proofs.Conversion.Safety
import XamlAssist.Proofs.TypeGraph.Registration

/-!
# How the types of a graph are arranged

The types of the seed stand first and stay there, whichever type of the session takes the place of
one. Behind them stand the other types of the session, each met once, and the instances of generic
types. Main statement: `Arranged.run`.
-/

namespace XamlAssist.Conversion

open TypeGraph

private theorem ofString?_seedName {name : String} (h : name ∈ seedNames) :
    GenericName.ofString? name = none := by
  have hall : seedNames.all fun name => GenericName.ofString? name = none := by decide +kernel
  exact of_decide_eq_true (List.all_eq_true.mp hall name h)

private theorem exists_find?_seed {name : String} (h : name ∈ seedNames) :
    ∃ id, TypeGraph.seed.find? name = some id := by
  obtain ⟨node, hnode, rfl⟩ := List.mem_map.mp h
  obtain ⟨id, hid⟩ := List.mem_iff_getElem?.mp hnode
  exact ⟨id, find?_seed hid⟩

/-- A type of the session or an instance, as it stands behind the seed. -/
structure IsOutside (label : Label) : Prop where
  isBuiltin : label.isBuiltin = false
  not_mem : label.fullName ∉ seedNames
  origin : label.handle.isSome = true ∨ (GenericName.ofString? label.fullName).isSome = true

/-- The types of the seed stand first. Those behind them are types of the session or instances, and
the types of the session have the handles that they were met by. -/
structure Arranged (builder : Builder) : Prop where
  continues : Continues TypeGraph.seed builder.graph
  seeded : ∀ {id : TypeId} {label : Label}, builder.graph.labels[id]? = some label →
    id < TypeGraph.seed.types.length → label.isBuiltin = true
  outside : ∀ {id : TypeId} {label : Label}, builder.graph.labels[id]? = some label →
    TypeGraph.seed.types.length ≤ id → IsOutside label
  met : ∀ {handle : Handle} {id : TypeId}, builder.ids.lookup handle = some id →
    ∃ label, builder.graph.labels[id]? = some label ∧
      (label.isBuiltin = false → label.handle = some handle)

variable {scope : Scope} {builder next : Builder}

theorem arranged_seed : Arranged {} where
  continues := indexed_seed.continues rfl rfl
  seeded := by
    intro id label hlabel _
    have hall : TypeGraph.seed.labels.all Label.isBuiltin := by decide +kernel
    exact List.all_eq_true.mp hall label (List.mem_of_getElem? hlabel)
  outside := by
    intro id label hlabel hle
    have hlt := (List.getElem?_eq_some_iff.mp hlabel).1
    rw [labels_length] at hlt
    exact absurd hlt (Nat.not_lt.mpr hle)
  met := fun h => absurd h (by simp)

namespace Arranged

theorem lt_of_isBuiltin (h : Arranged builder) {id : TypeId} {label : Label}
    (hlabel : builder.graph.labels[id]? = some label) (hbuiltin : label.isBuiltin = true) :
    id < TypeGraph.seed.types.length := by
  by_contra hle
  have houtside := h.outside hlabel (Nat.not_lt.mp hle)
  exact Bool.noConfusion (houtside.isBuiltin.symm.trans hbuiltin)

private theorem find?_seedName (h : Arranged builder) {name : String} {id : TypeId}
    (hid : TypeGraph.seed.find? name = some id) : builder.graph.find? name = some id :=
  h.continues.find?_some indexed_seed hid

theorem find?_seed_of_fullName (h : Arranged builder) {id : TypeId} {label : Label}
    (hlabel : builder.graph.labels[id]? = some label) (hname : label.fullName ∈ seedNames) :
    TypeGraph.seed.find? label.fullName = some id := by
  have hlt : id < TypeGraph.seed.types.length := by
    by_contra hle
    exact (h.outside hlabel (Nat.not_lt.mp hle)).not_mem hname
  have hseeded : TypeGraph.seed.get? id = some TypeGraph.seed.types[id] :=
    List.getElem?_eq_getElem hlt
  rw [labels_getElem?, Option.map_eq_some_iff] at hlabel
  obtain ⟨node, hnode, rfl⟩ := hlabel
  have hfull : node.fullName = TypeGraph.seed.types[id].fullName := by
    rw [← fullNameOf_of_get? hnode, ← fullNameOf_of_get? hseeded, h.continues.fullNameOf_eq hlt]
  rw [show node.label.fullName = TypeGraph.seed.types[id].fullName from hfull]
  exact find?_seed hseeded

private theorem not_mem_seedNames (h : Arranged builder) {name : String}
    (hnone : builder.seeded? name = none) : name ∉ seedNames := by
  intro hmem
  obtain ⟨id, hid⟩ := exists_find?_seed hmem
  have hfind := h.find?_seedName hid
  obtain ⟨node, hnode, -⟩ := h.continues.indexed.exists_node hfind
  obtain ⟨seeded, hseeded, -⟩ := indexed_seed.exists_node hid
  have hlabel : builder.graph.labels[id]? = some node.label := by
    rw [labels_getElem?, hnode, Option.map_some]
  have hbuiltin : node.isBuiltin = true := h.seeded hlabel (lt_of_get? hseeded)
  simp [Builder.seeded?, hfind, hnode, hbuiltin] at hnone

theorem congr (h : Arranged builder) (hcontinues : Continues builder.graph next.graph)
    (hlabels : next.graph.labels = builder.graph.labels) (hids : next.ids = builder.ids) :
    Arranged next where
  continues := h.continues.trans hcontinues
  seeded := by
    rw [hlabels]
    exact h.seeded
  outside := by
    rw [hlabels]
    exact h.outside
  met := by
    rw [hlabels, hids]
    exact h.met

theorem append (h : Arranged builder) (hcontinues : Continues builder.graph next.graph)
    {label : Label} (hlabel : IsOutside label)
    (hlabels : next.graph.labels = builder.graph.labels ++ [label])
    (hids : next.ids = builder.ids ∨ ∃ handle, label.handle = some handle ∧
      next.ids = (handle, builder.graph.types.length) :: builder.ids) : Arranged next := by
  have hlength := h.continues.length_le
  rw [← labels_length builder.graph] at hlength
  have hself : next.graph.labels[builder.graph.types.length]? = some label := by
    rw [hlabels, ← labels_length, List.getElem?_concat_length]
  have hold {id : TypeId} {other : Label} (hother : next.graph.labels[id]? = some other) :
      builder.graph.labels[id]? = some other ∨
        (other = label ∧ builder.graph.labels.length ≤ id) := by
    rw [hlabels, List.getElem?_append] at hother
    split at hother
    · exact .inl hother
    · next hle =>
        exact .inr ⟨List.mem_singleton.mp (List.mem_of_getElem? hother), Nat.not_lt.mp hle⟩
  have hmet {handle : Handle} {id : TypeId} (hid : builder.ids.lookup handle = some id) :
      ∃ other, next.graph.labels[id]? = some other ∧
        (other.isBuiltin = false → other.handle = some handle) := by
    obtain ⟨other, hother, hhandle⟩ := h.met hid
    refine ⟨other, ?_, hhandle⟩
    rw [hlabels, List.getElem?_append_left (List.getElem?_eq_some_iff.mp hother).1, hother]
  refine ⟨h.continues.trans hcontinues, ?_, ?_, ?_⟩
  · intro id other hother hlt
    rcases hold hother with hother | ⟨-, hle⟩
    · exact h.seeded hother hlt
    · exact absurd hlt (Nat.not_lt.mpr (Nat.le_trans hlength hle))
  · intro id other hother hle
    rcases hold hother with hother | ⟨rfl, -⟩
    · exact h.outside hother hle
    · exact hlabel
  · intro handle id hid
    rcases hids with hids | ⟨new, hnew, hids⟩
    · exact hmet (hids ▸ hid)
    · rw [hids, List.lookup_cons] at hid
      split at hid
      · next heq =>
          obtain rfl := Option.some.inj hid
          exact ⟨label, hself, fun _ => eq_of_beq heq ▸ hnew⟩
      · exact hmet hid

theorem takeOver (h : Arranged builder) (hcontinues : Continues builder.graph next.graph)
    {type : SessionType} {id : TypeId} {label : Label}
    (hlabel : builder.graph.labels[id]? = some label) (hbuiltin : label.isBuiltin = true)
    (hlabels : next.graph.labels = builder.graph.labels.set id (metLabel type true))
    (hids : next.ids = (type.handle, id) :: builder.ids) : Arranged next := by
  have hlt := (List.getElem?_eq_some_iff.mp hlabel).1
  have hself : next.graph.labels[id]? = some (metLabel type true) := by
    rw [hlabels, List.getElem?_set_self hlt]
  have hothers {other : TypeId} (hne : id ≠ other) :
      next.graph.labels[other]? = builder.graph.labels[other]? := by
    rw [hlabels, List.getElem?_set_ne hne]
  refine ⟨h.continues.trans hcontinues, ?_, ?_, ?_⟩
  · intro other current hcurrent hother
    by_cases hne : id = other
    · subst hne
      obtain rfl := Option.some.inj (hself.symm.trans hcurrent)
      rfl
    · exact h.seeded ((hothers hne).symm.trans hcurrent) hother
  · intro other current hcurrent hle
    by_cases hne : id = other
    · subst hne
      exact absurd (h.lt_of_isBuiltin hlabel hbuiltin) (Nat.not_lt.mpr hle)
    · exact h.outside ((hothers hne).symm.trans hcurrent) hle
  · intro handle other hother
    by_cases hne : id = other
    · subst hne
      exact ⟨metLabel type true, hself, fun hfalse => absurd hfalse (by simp [metLabel])⟩
    · rw [hids, List.lookup_cons] at hother
      split at hother
      · exact absurd (Option.some.inj hother) hne
      · obtain ⟨current, hcurrent, hhandle⟩ := h.met hother
        exact ⟨current, (hothers hne).trans hcurrent, hhandle⟩

theorem grow (h : Arranged builder) (hgrow : Grow scope builder next) : Arranged next := by
  have hcontinues := hgrow.continues h.continues.indexed
  cases hgrow with
  | remember entry => exact h.congr hcontinues rfl rfl
  | @add node hnode =>
      have hname : node.fullName ∉ seedNames := fun hmem => by
        have hsome := hnode.name
        rw [ofString?_seedName hmem] at hsome
        exact Bool.noConfusion hsome
      have hlabel : IsOutside node.label := ⟨hnode.isBuiltin, hname, .inr hnode.name⟩
      exact h.append hcontinues hlabel (labels_add _ node) (.inl rfl)
  | @ensure type _ =>
      rcases ensure_cases builder type with ⟨id, -, heq⟩ |
        ⟨-, id, label, hlabel, -, hbuiltin, heq⟩ | ⟨-, hseeded, heq⟩
      · rw [heq]
        exact h
      · rw [heq] at hcontinues ⊢
        exact h.takeOver hcontinues hlabel hbuiltin (labels_takeOver builder.graph id type) rfl
      · rw [heq] at hcontinues ⊢
        have hlabel : IsOutside (describe type).label :=
          ⟨rfl, h.not_mem_seedNames hseeded, .inl rfl⟩
        exact h.append hcontinues hlabel (labels_add _ (describe type))
          (.inr ⟨type.handle, rfl, rfl⟩)

theorem grows (h : Arranged builder) (hgrows : Grows scope builder next) : Arranged next := by
  induction hgrows with
  | refl => exact h
  | tail _ hlast ih => exact ih.grow hlast

theorem step (h : Arranged builder) (hstep : Step scope builder next) : Arranged next := by
  rcases hstep.labels with hrequest | ⟨hlabels, hids, -⟩
  · exact h.grows (Requests.grows (.single hrequest))
  · exact h.congr (hstep.continues h.continues.indexed) hlabels hids

theorem run (h : Arranged builder) (hrun : Run scope builder next) : Arranged next := by
  induction hrun with
  | refl => exact h
  | tail _ hlast ih => exact ih.step hlast

end Arranged

end XamlAssist.Conversion
