import XamlAssist.Proofs.Conversion.Completion
import XamlAssist.Proofs.Conversion.Instances
import XamlAssist.Proofs.Ordered
import XamlAssist.Proofs.Session

/-!
# The hints of nullable types

A nullable type gets the hints that the type which it wraps has when the nullable type is made. The
hints that are added at last come to the wrapped type alone. Main statement:
`hints_nullable_convert`.
-/

namespace XamlAssist.Conversion

open TypeGraph

/-- A type that was made for a reference to a nullable type, with the type that it wraps. -/
structure IsNullableOf (node : Node) (underlying : TypeId) : Prop where
  isInstance : IsInstance node
  isNullable : ∃ generic, GenericName.ofString? node.fullName = some generic ∧
    generic.definition = GenericName.nullableDefinition
  underlying_eq : node.underlying = some underlying

/-- The nullable types that wrap a type have its hints. -/
def Wraps (underlying : TypeId) (graph : TypeGraph) : Prop :=
  ∀ id node, graph.get? id = some node → IsNullableOf node underlying →
    ∃ wrapped, graph.get? underlying = some wrapped ∧ node.hints = wrapped.hints

variable {scope : Scope} {builder next : Builder} {graph : TypeGraph} {underlying : TypeId}

theorem Wraps.congr {other : TypeGraph} (h : Wraps underlying graph)
    (hview : other.types.map (fun node => (node.label, node.underlying, node.hints)) =
      graph.types.map fun node => (node.label, node.underlying, node.hints)) :
    Wraps underlying other := by
  intro id node hnode hinstance
  obtain ⟨before, hbefore, heq⟩ := exists_get?_of_map_eq hview.symm hnode
  simp only [Prod.mk.injEq] at heq
  obtain ⟨hlabel, hunderlying, hhints⟩ := heq
  have hname : before.fullName = node.fullName := congrArg Label.fullName hlabel
  have hinstanceBefore : IsNullableOf before underlying :=
    ⟨hinstance.isInstance.congr hlabel, hname ▸ hinstance.isNullable,
      hunderlying.trans hinstance.underlying_eq⟩
  obtain ⟨wrapped, hwrapped, hsame⟩ := h id before hbefore hinstanceBefore
  obtain ⟨now, hnow, heq⟩ := exists_get?_of_map_eq hview hwrapped
  simp only [Prod.mk.injEq] at heq
  exact ⟨now, hnow, hhints.symm.trans (hsame.trans heq.2.2.symm)⟩

private theorem wraps_register (scope : Scope) (underlying : TypeId) :
    Wraps underlying (register scope).2.graph :=
  fun _ _ hnode hinstance => absurd hinstance.isInstance (not_isInstance_register hnode)

private theorem hints_nullableNode {name : String} {generic : GenericName}
    {definition : Option TypeId} {wrapped : Node} (h : graph.get? underlying = some wrapped) :
    (Builder.nullableNode graph name generic definition (some underlying)).hints =
      wrapped.hints := by
  simp only [Builder.nullableNode, Option.bind_some, h, Option.map_some, Option.getD_some]

private theorem hints_takeOver {seeded described : Node} (h : described.hints = []) :
    (takeOver seeded described).hints = seeded.hints := by
  simp [takeOver, h]

theorem Wraps.make (h : Wraps underlying builder.graph) (harranged : Arranged builder)
    (hkept : ∀ type ∈ scope.session.types, builder.ids.lookup type.handle = none →
      underlying < TypeGraph.seed.types.length →
        type.fullName = builder.graph.fullNameOf underlying → (describe type).hints = [])
    (hmake : Make scope builder next) : Wraps underlying next.graph := by
  have hwraps {wrapped : Node} (hwrapped : builder.graph.get? underlying = some wrapped) :
      ∃ now, next.graph.get? underlying = some now ∧ wrapped.hints = now.hints := by
    rcases hmake.get?_of_some harranged hwrapped with hsame | ⟨type, htype, hlt, hnew, hname, heq⟩
    · exact ⟨wrapped, hsame, rfl⟩
    · rw [← fullNameOf_of_get? hwrapped] at hname
      exact ⟨_, heq, (hints_takeOver (hkept type htype hnew hlt hname.symm)).symm⟩
  intro id node hnode hinstance
  have hisInstance := hinstance.isInstance
  cases hmake.origin harranged hnode with
  | kept hold =>
      obtain ⟨wrapped, hwrapped, hsame⟩ := h id node hold hinstance
      obtain ⟨now, hnow, hhints⟩ := hwraps hwrapped
      exact ⟨now, hnow, hsame.trans hhints⟩
  | takenOver => exact Bool.noConfusion hisInstance.isBuiltin
  | described type => exact absurd hisInstance.handle (by simp [describe])
  | @created name generic definition argument isComplete hname _ hargument =>
      obtain ⟨other, hother, hnullable⟩ := hinstance.isNullable
      have hinstanceNode : Builder.instanceNode builder.graph name generic definition argument =
          Builder.nullableNode builder.graph name generic definition argument := by
        rw [listedIf, fullName_instanceNode] at hother
        obtain rfl := Option.some.inj (hname.symm.trans hother)
        exact if_pos hnullable
      have hunderlying := hinstance.underlying_eq
      rw [listedIf, hinstanceNode] at hunderlying
      obtain rfl : argument = some underlying := hunderlying
      have hlt := hargument underlying rfl
      have hwrapped : builder.graph.get? underlying = some builder.graph.types[underlying] :=
        List.getElem?_eq_getElem hlt
      obtain ⟨now, hnow, hhints⟩ := hwraps hwrapped
      refine ⟨now, hnow, ?_⟩
      rw [listedIf, hinstanceNode, hints_nullableNode hwrapped, hhints]

/-- Types of the session that are not offered have no hints for a name of the seed, so they do not
change those of the type of the seed when they take its place. -/
def KeepsHints (scope : Scope) (fullName : String) : Prop :=
  fullName ∈ seedNames → ∀ type ∈ scope.session.types, type ∉ scope.allOffered →
    type.fullName = fullName → (describe type).hints = []

private theorem not_mem_allOffered {count : Nat}
    (hgrows : Grows scope (harvestedUpTo scope count) builder)
    {type : SessionType} (h : builder.ids.lookup type.handle = none) :
    type ∉ scope.allOffered := by
  intro hmem
  rw [← (registered_register scope).types_eq] at hmem
  obtain ⟨pair, hpair, rfl⟩ := List.mem_map.mp hmem
  have hmet := hgrows.lookup (lookup_harvestedUpTo hpair count)
  exact Option.some_ne_none _ (hmet.symm.trans h)

theorem Wraps.makes {count : Nat} (h : Wraps underlying (harvestedUpTo scope count).graph)
    (harranged : Arranged (harvestedUpTo scope count))
    (hkept : underlying < TypeGraph.seed.types.length →
      KeepsHints scope (TypeGraph.seed.fullNameOf underlying))
    (hmakes : Makes scope (harvestedUpTo scope count) next) : Wraps underlying next.graph := by
  induction hmakes with
  | refl => exact h
  | tail hfirst hlast ih =>
      have hgrows := Makes.grows hfirst
      have hmiddle := harranged.grows hgrows
      refine ih.make hmiddle (fun type htype hnew hlt hname => ?_) hlast
      have hmem : TypeGraph.seed.fullNameOf underlying ∈ seedNames := by
        rw [fullNameOf_of_get? (List.getElem?_eq_getElem hlt)]
        exact List.mem_map_of_mem (List.getElem_mem hlt)
      exact hkept hlt hmem type htype (not_mem_allOffered hgrows hnew)
        (hname.trans (hmiddle.continues.fullNameOf_eq hlt))

private theorem wraps_harvestedUpTo (hhandles : scope.HandlesDiffer)
    (hkept : underlying < TypeGraph.seed.types.length →
      KeepsHints scope (TypeGraph.seed.fullNameOf underlying)) {count : Nat}
    (hcount : count ≤ (register scope).1.length) :
    Wraps underlying (harvestedUpTo scope count).graph := by
  induction count with
  | zero =>
      rw [harvestedUpTo_zero]
      exact wraps_register scope underlying
  | succ count ih =>
      have hpair : (register scope).1[count]? = some (register scope).1[count] :=
        List.getElem?_eq_getElem hcount
      obtain ⟨grown, gathered, argument, hmakes, htypes⟩ := exists_makes hhandles hpair
      have hgrown := (ih (Nat.le_of_succ_le hcount)).makes
        (ready_harvestedUpTo hhandles count).arranged hkept hmakes
      refine hgrown.congr ?_
      rw [htypes]
      exact map_modify_eq grown.graph _ fun _ => rfl

/-! ### Hints that are added at last -/

variable {entries : List (TypeId × List String)} {id : TypeId} {hints : List String}

private theorem hintsAfter_cons (target : TypeId) (new : List String) :
    hintsAfter ((target, new) :: entries) id hints =
      hintsAfter entries id (if target = id then insertAllNew [] (hints ++ new) else hints) :=
  rfl

private theorem mem_hintsAfter {hint : String} :
    hint ∈ hintsAfter entries id hints ↔
      hint ∈ hints ∨ ∃ new, (id, new) ∈ entries ∧ hint ∈ new := by
  induction entries generalizing hints with
  | nil => simp [hintsAfter]
  | cons entry entries ih =>
      obtain ⟨target, new⟩ := entry
      rw [hintsAfter_cons, ih]
      by_cases htarget : target = id
      · simp [htarget, mem_insertAllNew, or_and_right, exists_or, or_assoc]
      · simp [htarget, Ne.symm htarget]

private theorem nodup_hintsAfter (h : hints.Nodup ∨ ∃ new, (id, new) ∈ entries) :
    (hintsAfter entries id hints).Nodup := by
  induction entries generalizing hints with
  | nil => exact h.resolve_right (by simp)
  | cons entry entries ih =>
      obtain ⟨target, new⟩ := entry
      rw [hintsAfter_cons]
      by_cases htarget : target = id
      · rw [if_pos htarget]
        exact ih (.inl (nodup_insertAllNew List.nodup_nil _))
      · rw [if_neg htarget]
        refine ih (h.imp_right ?_)
        rintro ⟨other, hother⟩
        rcases List.mem_cons.mp hother with heq | hother
        · exact absurd (congrArg Prod.fst heq).symm htarget
        · exact ⟨other, hother⟩

private theorem hintsAfter_of_subset
    (h : ∀ new, (id, new) ∈ entries → hints.Nodup ∧ ∀ hint ∈ new, hint ∈ hints) :
    hintsAfter entries id hints = hints := by
  induction entries with
  | nil => rfl
  | cons entry entries ih =>
      obtain ⟨target, new⟩ := entry
      have hrest := ih fun other hother => h other (List.mem_cons_of_mem _ hother)
      rw [hintsAfter_cons]
      by_cases htarget : target = id
      · subst htarget
        obtain ⟨hnodup, hsubset⟩ := h new List.mem_cons_self
        have hsame : insertAllNew [] (hints ++ new) = hints := by
          have hkept : insertAllNew [] hints = hints :=
            @insertAllNew_of_nodup _ _ _ [] hints hnodup
          rw [insertAllNew_append, hkept]
          exact insertAllNew_of_subset hsubset
        rw [if_pos rfl, hsame, hrest]
      · rw [if_neg htarget, hrest]

private theorem eq_hintsAfter_iff :
    hints = hintsAfter entries id hints ↔
      ∀ new, (id, new) ∈ entries → hints.Nodup ∧ ∀ hint ∈ new, hint ∈ hints := by
  constructor
  · intro heq new hnew
    refine ⟨?_, fun hint hhint => ?_⟩
    · rw [heq]
      exact nodup_hintsAfter (.inr ⟨new, hnew⟩)
    · rw [heq]
      exact mem_hintsAfter.mpr (.inr ⟨new, hnew, hhint⟩)
  · exact fun h => (hintsAfter_of_subset h).symm

private theorem eq_some_of_mem_staticHints {holder : String} {found : Option TypeId}
    {entry : TypeId × List String} (h : entry ∈ staticHints scope holder found) :
    found = some entry.1 := by
  unfold staticHints at h
  split at h
  · obtain ⟨id, hid, rfl⟩ := List.mem_map.mp h
    exact Option.mem_toList.mp hid
  · exact absurd h List.not_mem_nil

/-- Hints are added to types of the seed and to two types that are found by plain names. -/
theorem target_of_mem_lateHints {offered : List TypeId} {entry : TypeId × List String}
    (h : entry ∈ lateHints scope offered graph) :
    entry.1 < TypeGraph.seed.types.length ∨
      ∃ name, GenericName.ofString? name = none ∧ graph.find? name = some entry.1 := by
  have hseed : ∀ target ∈ [Seed.resourceUriId, Seed.markupUriId, Seed.imageId, Seed.bitmapId,
      Seed.imageUriId, Seed.brushId, Seed.selectorId, Seed.propertyId],
      target < TypeGraph.seed.types.length := by decide +kernel
  simp only [lateHints, addressHints, nameHints, List.mem_append, List.mem_cons,
    List.not_mem_nil, or_false, List.mem_map, Option.mem_toList] at h
  rcases h with (((rfl | rfl | rfl | rfl) | ⟨id, hid, rfl⟩) | rfl) | (hbrush | hcolor) | rfl | rfl
  · exact .inl (hseed _ (by simp))
  · exact .inl (hseed _ (by simp))
  · exact .inl (hseed _ (by simp))
  · exact .inl (hseed _ (by simp))
  · exact .inr ⟨Known.windowIcon, by decide +kernel, hid⟩
  · exact .inl (hseed _ (by simp))
  · have hentry := Option.some.inj (eq_some_of_mem_staticHints hbrush)
    exact .inl (hentry ▸ hseed _ (by simp))
  · exact .inr ⟨Known.color, by decide +kernel, eq_some_of_mem_staticHints hcolor⟩
  · exact .inl (hseed _ (by simp))
  · exact .inl (hseed _ (by simp))

private theorem hintsAfter_of_isInstance (harranged : Arranged builder) {node : Node}
    (hnode : builder.graph.get? id = some node) (hinstance : IsInstance node)
    (offered : List TypeId) :
    hintsAfter (lateHints scope offered builder.graph) id node.hints = node.hints := by
  refine hintsAfter_of_subset fun new hnew => ?_
  exfalso
  rcases target_of_mem_lateHints hnew with hlt | ⟨name, hplain, hfind⟩
  · have hlabel : builder.graph.labels[id]? = some node.label := by
      rw [labels_getElem?, hnode, Option.map_some]
    exact Bool.noConfusion (hinstance.isBuiltin.symm.trans (harranged.seeded hlabel hlt))
  · obtain ⟨found, hfound, -, hname⟩ := harranged.continues.indexed.exists_node hfind
    obtain rfl := Option.some.inj (hfound.symm.trans hnode)
    have hgeneric := hinstance.name
    rw [hname, hplain] at hgeneric
    exact Bool.noConfusion hgeneric

private theorem hints_completed (declaring : List TypeId) (node : Node) :
    (completed entries declaring id node).hints = hintsAfter entries id node.hints :=
  rfl

/-- A nullable type wraps a type of the graph. It has the hints of that type if and only if all that
were added to them at last were there before, each once, unless a type that is not offered brought
other hints for a name of the seed. -/
theorem hints_nullable_convert (settings : Settings) (target : Option String)
    (libraries : List Library) (files : Files.Tree) {id underlying : TypeId} {node : Node}
    (hnode : (convert settings (.withTarget target libraries files)).get? id = some node)
    (hinstance : IsNullableOf node underlying) :
    let scope : Scope := ⟨settings, .withTarget target libraries files⟩
    ∃ wrapped,
      (convert settings (.withTarget target libraries files)).get? underlying = some wrapped ∧
      (KeepsHints scope wrapped.fullName →
        (node.hints = wrapped.hints ↔
          ∀ new, (underlying, new) ∈ lateHints scope ((register scope).1.map Prod.fst)
            (harvested settings (.withTarget target libraries files)).graph →
              node.hints.Nodup ∧ ∀ hint ∈ new, hint ∈ node.hints)) := by
  intro scope
  have hhandles : scope.HandlesDiffer := fun _ ha _ hb => Session.eq_of_handle_eq ha hb
  have hready := ready_harvestedUpTo hhandles (register scope).1.length
  rw [harvestedUpTo_length] at hready
  rw [get?_convert, Option.map_eq_some_iff] at hnode
  obtain ⟨before, hbefore, rfl⟩ := hnode
  have hnullable : IsNullableOf before underlying :=
    ⟨hinstance.isInstance.congr rfl, hinstance.isNullable, hinstance.underlying_eq⟩
  have hlt : underlying <
      (harvested settings (.withTarget target libraries files)).graph.types.length := by
    refine hready.bounded.closed.get? hbefore underlying ?_
    simp [Node.numbers, hnullable.underlying_eq]
  have hwrapped : (harvested settings (.withTarget target libraries files)).graph.get? underlying =
      some _ := List.getElem?_eq_getElem hlt
  refine ⟨_, by rw [get?_convert, hwrapped, Option.map_some], fun hkept => ?_⟩
  have hseedKept : underlying < TypeGraph.seed.types.length →
      KeepsHints scope (TypeGraph.seed.fullNameOf underlying) := by
    intro hsmall
    rw [← hready.arranged.continues.fullNameOf_eq hsmall, fullNameOf_of_get? hwrapped]
    exact hkept
  have hwraps := wraps_harvestedUpTo hhandles hseedKept (Nat.le_refl _)
  rw [harvestedUpTo_length] at hwraps
  obtain ⟨wrapped, hsame, hhints⟩ := hwraps id before hbefore hnullable
  obtain rfl := Option.some.inj (hwrapped.symm.trans hsame)
  rw [hints_completed, hints_completed,
    hintsAfter_of_isInstance hready.arranged hbefore hnullable.isInstance, ← hhints]
  exact eq_hintsAfter_iff

/-- A library with a choice of speeds that a type before it may leave open. -/
def driveLibrary : Library :=
  { name := "App"
    types :=
      [{ namespaceName := "App", name := "Drive"
         properties := [{ name := "Speed", typeName := "System.Nullable`1<App.Speed>"
                          getter := some .everywhere }] },
       { namespaceName := "App", name := "Speed", isEnum := true
         enumValues := ["Slow", "Fast"] }] }

theorem hints_nullable_convert_drive :
    ∃ node wrapped,
      (convert {} (.withTarget (some "App") [driveLibrary] {})).get? 26 = some node ∧
      IsNullableOf node 25 ∧
      (convert {} (.withTarget (some "App") [driveLibrary] {})).get? 25 = some wrapped ∧
      node.hints = wrapped.hints ∧ node.hints = ["Slow", "Fast"] := by
  obtain ⟨hfields, hhints, hwrappedName, hlate⟩ :
      ((convert {} (.withTarget (some "App") [driveLibrary] {})).get? 26).map
        (fun node => (node.handle, node.isBuiltin, node.fullName, node.underlying)) =
          some (none, false, "System.Nullable`1<App.Speed>", some 25) ∧
      ((convert {} (.withTarget (some "App") [driveLibrary] {})).get? 26).map Node.hints =
        some ["Slow", "Fast"] ∧
      (convert {} (.withTarget (some "App") [driveLibrary] {})).fullNameOf 25 = "App.Speed" ∧
      (lateHints ⟨{}, .withTarget (some "App") [driveLibrary] {}⟩
        ((register ⟨{}, .withTarget (some "App") [driveLibrary] {}⟩).1.map Prod.fst)
        (harvested {} (.withTarget (some "App") [driveLibrary] {})).graph).all (·.1 ≠ 25) := by
    decide +kernel
  have hname : GenericName.ofString? "System.Nullable`1<App.Speed>" =
      some ⟨"System.Nullable`1", ["App.Speed"]⟩ := by decide +kernel
  obtain ⟨node, hnode, hmade, hfull, hunderlying⟩ :=
    exists_isInstance (Option.isSome_of_eq_some hname) hfields
  have hinstance : IsNullableOf node 25 := ⟨hmade, ⟨_, hfull ▸ hname, rfl⟩, hunderlying⟩
  obtain ⟨wrapped, hwrapped, hiff⟩ := hints_nullable_convert {} (some "App") [driveLibrary] {}
    hnode hinstance
  have hspeed : wrapped.fullName = "App.Speed" :=
    (fullNameOf_of_get? hwrapped).symm.trans hwrappedName
  have hkept : KeepsHints ⟨{}, .withTarget (some "App") [driveLibrary] {}⟩ wrapped.fullName :=
    fun hmem => absurd (hspeed ▸ hmem) (by decide +kernel)
  have hnothing : ∀ new, (25, new) ∉ lateHints ⟨{}, .withTarget (some "App") [driveLibrary] {}⟩
      ((register ⟨{}, .withTarget (some "App") [driveLibrary] {}⟩).1.map Prod.fst)
      (harvested {} (.withTarget (some "App") [driveLibrary] {})).graph :=
    fun new hnew => of_decide_eq_true (List.all_eq_true.mp hlate _ hnew) rfl
  refine ⟨node, wrapped, hnode, hinstance, hwrapped,
    (hiff hkept).mpr fun new hnew => absurd hnew (hnothing new), ?_⟩
  rw [hnode, Option.map_some] at hhints
  exact Option.some.inj hhints

-- The hints of the seed may be replaced after they were copied: a base type that is not offered is
-- met when the members of a type are gathered.
example :
    let library : Library :=
      { name := "App"
        types :=
          [{ namespaceName := "App", name := "Gauge"
             properties := [{ name := "Level", typeName := "System.Nullable`1<System.Boolean>"
                              getter := some .everywhere }] },
           { namespaceName := "App", name := "Switch", baseType := some "System.Boolean" },
           { namespaceName := "System", name := "Boolean", visibility := .nowhere
             isEnum := true, enumValues := ["On", "Off"] }] }
    let graph := convert {} (.withTarget (some "App") [library] {})
    (graph.get? 26).map Node.hints = some ["True", "False"] ∧
      (graph.get? Seed.booleanId).map Node.hints = some ["On", "Off"] := by
  decide +kernel

/-- A library with a colour that a type may leave open, and the names of colours. -/
def penLibrary : Library :=
  { name := "App"
    types :=
      [{ namespaceName := "App", name := "Pen"
         properties := [{ name := "Tint", typeName := "System.Nullable`1<Avalonia.Media.Color>"
                          getter := some .everywhere }] },
       { namespaceName := "Avalonia.Media", name := "Color" },
       { namespaceName := "Avalonia.Media", name := "Colors"
         properties := [{ name := "Red", typeName := "Avalonia.Media.Color", isStatic := true
                          getter := some .everywhere }] }] }

/-- Colours get their names as hints, and a colour that may be left open has none. -/
theorem hints_nullable_pen :
    (∃ node, (convert {} (.withTarget (some "App") [penLibrary] {})).get? 27 = some node ∧
        IsNullableOf node 25) ∧
      ((convert {} (.withTarget (some "App") [penLibrary] {})).get? 27).map Node.hints =
        some [] ∧
      ((convert {} (.withTarget (some "App") [penLibrary] {})).get? 25).map Node.hints =
        some ["Red"] := by
  have hname : GenericName.ofString? "System.Nullable`1<Avalonia.Media.Color>" =
      some ⟨"System.Nullable`1", ["Avalonia.Media.Color"]⟩ := by decide +kernel
  obtain ⟨hfields, hhints⟩ :
      ((convert {} (.withTarget (some "App") [penLibrary] {})).get? 27).map
        (fun node => (node.handle, node.isBuiltin, node.fullName, node.underlying)) =
          some (none, false, "System.Nullable`1<Avalonia.Media.Color>", some 25) ∧
      ((convert {} (.withTarget (some "App") [penLibrary] {})).get? 27).map Node.hints =
        some [] ∧
      ((convert {} (.withTarget (some "App") [penLibrary] {})).get? 25).map Node.hints =
        some ["Red"] := by
    decide +kernel
  obtain ⟨node, hnode, hmade, hfull, hunderlying⟩ :=
    exists_isInstance (Option.isSome_of_eq_some hname) hfields
  exact ⟨⟨node, hnode, hmade, ⟨_, hfull ▸ hname, rfl⟩, hunderlying⟩, hhints⟩

end XamlAssist.Conversion
