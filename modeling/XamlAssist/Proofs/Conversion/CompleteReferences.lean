import XamlAssist.Proofs.Conversion.Names
import XamlAssist.Proofs.Conversion.ResolutionLevels
import XamlAssist.Proofs.Session

/-!
# References that are resolved completely

A reference that does not nest deeper than the limit stands for all of its levels. That also holds
of what was remembered or is found by its name, since an instance with a level cut off is neither.
Main statement: `nesting_predicts_resolution`.
-/

namespace XamlAssist.Conversion

open TypeGraph GenericName

/-! ### All levels -/

/-- What the type of an instance leads on to. -/
def argumentIn (generic : GenericName) (node : Node) : Option TypeId :=
  if generic.definition = nullableDefinition then node.underlying else node.items

/-- What a name stands for when none of its levels is cut off. -/
inductive StandsFor (scope : Scope) (builder : Builder) : String → Option TypeId → Prop
  | blank : StandsFor scope builder "" none
  | plain {name : String} {value : Option TypeId} :
      ofString? name = none → Settled scope builder name value →
      StandsFor scope builder name value
  /-- The session has a type that is named like an instance. -/
  | declared {type : SessionType} {id : TypeId} :
      type ∈ scope.session.types → builder.ids.lookup type.handle = some id →
      builder.graph.find? type.fullName = some id →
      StandsFor scope builder type.fullName (some id)
  | definition {name : String} {generic : GenericName} {value : Option TypeId} :
      ofString? name = some generic → Builder.isSynthesized generic.definition = false →
      Settled scope builder generic.definition value → StandsFor scope builder name value
  | synthesis {name : String} {generic : GenericName} {id : TypeId} {node : Node} :
      ofString? name = some generic → Builder.isSynthesized generic.definition = true →
      builder.graph.find? name = some id → builder.graph.get? id = some node → IsInstance node →
      StandsFor scope builder (generic.arguments.headD "") (argumentIn generic node) →
      StandsFor scope builder name (some id)

variable {scope : Scope} {builder next : Builder} {name reference : String}
  {value : Option TypeId} {depth : Nat} {branches : List Branch}
  {resolved : Option TypeId × Builder} {generic : GenericName}

theorem StandsFor.mono (h : StandsFor scope builder name value)
    (hextends : Extends scope builder next)
    (hlookup : ∀ {handle : Handle} {id : TypeId}, builder.ids.lookup handle = some id →
      next.ids.lookup handle = some id) : StandsFor scope next name value := by
  induction h with
  | blank => exact .blank
  | plain hplain hsettled => exact .plain hplain (hsettled.mono hplain hextends)
  | declared htype hid hfind => exact .declared htype (hlookup hid) (hextends.find?_some hfind)
  | definition hname hother hsettled =>
      exact .definition hname hother (hsettled.mono (ofString?_definition hname) hextends)
  | synthesis hname hsynthesized hfind hnode hinstance _ ih =>
      obtain ⟨other, hother, hotherInstance, -, hunderlying, hitems⟩ :=
        hextends.instances hnode hinstance
      refine .synthesis hname hsynthesized (hextends.find?_some hfind) hother hotherInstance ?_
      rw [argumentIn, hunderlying, hitems]
      exact ih

/-! ### What is found and remembered -/

/-- Whatever leads from the name of an instance to a type leads to all of its levels. -/
structure Truthful (scope : Scope) (builder : Builder) : Prop where
  anchored : Anchored scope builder
  found : ∀ {name : String} {id : TypeId}, ofString? name ≠ none →
    builder.graph.find? name = some id → StandsFor scope builder name (some id)
  remembered : ∀ {name : String} {value : Option TypeId},
    builder.instances.lookup ⟨name, none⟩ = some value → StandsFor scope builder name value

private theorem truthful_seed (scope : Scope) : Truthful scope {} := by
  refine ⟨anchored_seed scope, ?_, fun h => absurd h (by simp)⟩
  intro name id hname hfind
  exact absurd ((find?_seed_eq_none hname).symm.trans hfind) (by simp)

theorem Truthful.extend (h : Truthful scope builder) (hextends : Extends scope builder next)
    (hlookup : ∀ {handle : Handle} {id : TypeId}, builder.ids.lookup handle = some id →
      next.ids.lookup handle = some id)
    (hanchored : Anchored scope next)
    (hfound : ∀ {name : String} {id : TypeId}, ofString? name ≠ none →
      builder.graph.find? name = none → next.graph.find? name = some id →
        StandsFor scope next name (some id))
    (hremembered : ∀ {name : String} {value : Option TypeId},
      next.instances.lookup ⟨name, none⟩ = some value →
        builder.instances.lookup ⟨name, none⟩ = some value ∨ StandsFor scope next name value) :
    Truthful scope next := by
  refine ⟨hanchored, ?_, ?_⟩
  · intro name id hname hid
    cases hold : builder.graph.find? name with
    | none => exact hfound hname hold hid
    | some other =>
        obtain rfl := Option.some.inj ((hextends.find?_some hold).symm.trans hid)
        exact (h.found hname hold).mono hextends hlookup
  · intro name value hvalue
    rcases hremembered hvalue with hold | hnew
    · exact (h.remembered hold).mono hextends hlookup
    · exact hnew

theorem Truthful.ensure (h : Truthful scope builder) (hhandles : scope.HandlesDiffer)
    {type : SessionType} (htype : type ∈ scope.session.types) :
    Truthful scope (builder.ensure type).2 := by
  have hgrow : Grow scope builder (builder.ensure type).2 := .ensure htype
  refine h.extend hgrow.extends hgrow.lookup (h.anchored.grow hhandles hgrow) ?_ ?_
  · intro name id _ hnone hid
    rcases find?_ensure_cases hid with hold | ⟨rfl, hplace⟩
    · exact absurd (hold.symm.trans hnone) (by simp)
    · refine .declared htype ?_ hid
      rw [lookup_ensure, hplace]
  · intro name value hvalue
    rw [instances_ensure] at hvalue
    exact .inl hvalue

theorem Truthful.resolvePlain (h : Truthful scope builder) (hhandles : scope.HandlesDiffer)
    (plain : String) : Truthful scope (builder.resolvePlain scope plain).2 := by
  rcases resolvePlain_cases scope plain builder with heq | ⟨type, htype, heq⟩
  · rw [heq]
    exact h
  · rw [heq]
    exact h.ensure hhandles htype

theorem Truthful.remember (h : Truthful scope builder) {key : InstanceKey}
    (hvalue : key.room = none → StandsFor scope builder key.name value) :
    Truthful scope (Builder.remember key (value, builder)).2 := by
  have hgrow : Grow scope builder (Builder.remember key (value, builder)).2 :=
    .remember (key, value)
  refine h.extend hgrow.extends hgrow.lookup (h.anchored.congr rfl rfl rfl) ?_ ?_
  · intro name id _ hnone hid
    exact absurd (hnone.symm.trans hid) (by simp)
  · intro name other hother
    rw [Builder.remember, List.lookup_cons] at hother
    split at hother
    · next heq =>
        obtain rfl := eq_of_beq heq
        obtain rfl := Option.some.inj hother
        exact .inr ((hvalue rfl).mono hgrow.extends hgrow.lookup)
    · exact .inl hother

theorem Truthful.add (h : Truthful scope builder) (hhandles : scope.HandlesDiffer) {node : Node}
    (hinstance : IsInstance node)
    (hlisted : node.isListed = true →
      StandsFor scope (builder.add node).2 node.fullName (some builder.graph.types.length)) :
    Truthful scope (builder.add node).2 := by
  have hgrow : Grow scope builder (builder.add node).2 := .add hinstance
  refine h.extend hgrow.extends hgrow.lookup (h.anchored.grow hhandles hgrow) ?_ .inl
  intro name id _ hnone hid
  rcases find?_add_cases hid with hold | ⟨htrue, rfl, rfl⟩
  · exact absurd (hold.symm.trans hnone) (by simp)
  · exact hlisted htrue

/-! ### Resolving -/

private theorem trimmed_of_mem_arguments (h : ofString? name = some generic) {argument : String}
    (hmem : argument ∈ generic.arguments) : trimmed argument = argument := by
  rw [trimmed, trim_of_mem_arguments h hmem, String.ofList_toList]

private theorem find?_resolvePlain_of_plain {plain : String} (hplain : ofString? plain = none)
    (hname : ofString? name ≠ none) :
    (builder.resolvePlain scope plain).2.graph.find? name = builder.graph.find? name := by
  rw [Builder.resolvePlain]
  cases builder.graph.find? plain with
  | some id => rfl
  | none =>
      cases htype : scope.type? plain with
      | none => rfl
      | some type =>
          have hfull : type.fullName = plain := by simpa using List.find?_some htype
          refine find?_ensure_of_ne builder fun heq => hname ?_
          rw [← heq, hfull, hplain]

theorem Resolution.find?_eq (h : Resolution scope depth reference builder branches resolved)
    (hname : ofString? name ≠ none) (hlt : nesting reference < nesting name) :
    resolved.2.graph.find? name = builder.graph.find? name := by
  induction h with
  | blank | known => rfl
  | plain _ hplain => exact find?_resolvePlain_of_plain hplain hname
  | limit hnew | definition hnew =>
      exact find?_resolvePlain_of_plain (ofString?_definition hnew.name) hname
  | synthesis hnew _ _ _ ih =>
      have hargument := (ih (hnew.nesting_argument_lt.trans hlt)).trans
        (find?_resolvePlain_of_plain (ofString?_definition hnew.name) hname)
      refine (find?_add_of_ne fun _ hfull => ?_).trans hargument
      rw [← hfull] at hlt
      dsimp only at hlt
      rw [fullName_instanceNode, nesting_trimmed] at hlt
      exact Nat.lt_irrefl _ hlt

theorem IsNewInstance.find?_eq_none (h : IsNewInstance scope depth reference builder generic)
    (hcomplete : scope.isComplete depth (trimmed reference) = true) :
    builder.graph.find? (trimmed reference) = none := by
  have hunknown := h.unknown
  rw [Scope.known?, hcomplete, Builder.instance?, if_pos rfl] at hunknown
  cases hfind : builder.graph.find? (trimmed reference) with
  | none => rfl
  | some id => simp [Scope.instanceKey, hfind] at hunknown

theorem Truthful.known (h : Truthful scope builder) (hname : ofString? name = some generic)
    (hcomplete : scope.isComplete depth name = true)
    (hknown : scope.known? depth name builder = some value) :
    StandsFor scope builder name value := by
  rw [Scope.known?, Scope.instanceKey, hcomplete, Builder.instance?, if_pos rfl, if_pos rfl]
    at hknown
  cases hfind : builder.graph.find? name with
  | none =>
      rw [hfind] at hknown
      exact h.remembered hknown
  | some id =>
      rw [hfind] at hknown
      obtain rfl := Option.some.inj hknown
      exact h.found (by simp [hname]) hfind

private theorem Truthful.remember_instance (h : Truthful scope builder)
    (hvalue : scope.isComplete depth name = true → StandsFor scope builder name value) :
    let resolved := Builder.remember (scope.instanceKey depth name) (value, builder)
    Truthful scope resolved.2 ∧
      (scope.isComplete depth name = true → StandsFor scope resolved.2 name resolved.1) := by
  intro resolved
  have hgrow : Grow scope builder resolved.2 := .remember (scope.instanceKey depth name, value)
  constructor
  · refine h.remember fun hkey => hvalue ?_
    simpa [Scope.instanceKey] using hkey
  · intro hcomplete
    exact (hvalue hcomplete).mono hgrow.extends hgrow.lookup

private theorem argumentIn_instanceNode (graph : TypeGraph) (name : String) (generic : GenericName)
    (definition argument : Option TypeId) :
    argumentIn generic (Builder.instanceNode graph name generic definition argument) =
      argument := by
  unfold Builder.instanceNode argumentIn
  split <;> rfl

/-- The type of an instance is added and remembered when its argument is resolved. -/
theorem Truthful.synthesize (h : Truthful scope builder) (hhandles : scope.HandlesDiffer)
    (hname : ofString? name = some generic)
    (hsynthesized : Builder.isSynthesized generic.definition = true)
    (definition argument : Option TypeId)
    (hnone : scope.isComplete depth name = true → builder.graph.find? name = none)
    (hargument : scope.isComplete depth name = true →
      StandsFor scope builder (generic.arguments.headD "") argument) :
    let resolved := Builder.remember (scope.instanceKey depth name)
      (builder.addInstance (scope.isComplete depth name)
        (Builder.instanceNode builder.graph name generic definition argument))
    Truthful scope resolved.2 ∧
      (scope.isComplete depth name = true → StandsFor scope resolved.2 name resolved.1) := by
  let node : Node := { Builder.instanceNode builder.graph name generic definition argument with
    isListed := scope.isComplete depth name }
  have hfull : node.fullName = name := fullName_instanceNode builder.graph name generic _ _
  have hinstance : IsInstance node := by
    have hnode := instanceNode_isInstance builder.graph hname definition argument
    exact ⟨hnode.handle, hnode.isBuiltin, hnode.name⟩
  have hgrow : Grow scope builder (builder.add node).2 := .add hinstance
  have hstands (hcomplete : scope.isComplete depth name = true) :
      StandsFor scope (builder.add node).2 name (some builder.graph.types.length) := by
    have hfind : (builder.graph.add node).find? name = some builder.graph.types.length := by
      rw [← hfull]
      exact find?_add_self hcomplete (by rw [hfull, hnone hcomplete])
    refine .synthesis hname hsynthesized hfind (get?_add_length builder.graph node) hinstance ?_
    have hleads : argumentIn generic node = argument :=
      argumentIn_instanceNode builder.graph name generic definition argument
    rw [hleads]
    exact (hargument hcomplete).mono hgrow.extends hgrow.lookup
  have hadded : Truthful scope (builder.add node).2 := by
    refine h.add hhandles hinstance fun hlisted => ?_
    rw [hfull]
    exact hstands hlisted
  exact hadded.remember_instance hstands

/-- Resolving keeps what is found and remembered right, and gives all levels of a reference that is
judged complete. -/
theorem Resolution.truthful (h : Resolution scope depth reference builder branches resolved)
    (hhandles : scope.HandlesDiffer) (htruthful : Truthful scope builder) :
    Truthful scope resolved.2 ∧ (scope.isComplete depth (trimmed reference) = true →
      StandsFor scope resolved.2 (trimmed reference) resolved.1) := by
  induction h with
  | blank hblank =>
      rw [hblank]
      exact ⟨htruthful, fun _ => .blank⟩
  | plain _ hplain =>
      exact ⟨htruthful.resolvePlain hhandles _,
        fun _ => .plain hplain (settled_resolvePlain htruthful.anchored _)⟩
  | known hname hknown =>
      exact ⟨htruthful, fun hcomplete => htruthful.known hname hcomplete hknown⟩
  | @limit _ _ _ generic hnew hlimit =>
      refine (htruthful.resolvePlain hhandles generic.definition).remember_instance ?_
      intro hcomplete
      have hless := hnew.nesting_argument_lt
      have hdepth := isComplete_trimmed_iff.mp hcomplete
      omega
  | @synthesis depth reference builder generic _ _ hnew _ hsynthesized hargument ih =>
      obtain ⟨hkept, hstands⟩ := ih (htruthful.resolvePlain hhandles generic.definition)
      have hless := hnew.nesting_argument_lt
      have hfirst := headD_mem_arguments hnew.name
      refine hkept.synthesize hhandles hnew.name hsynthesized _ _ ?_ ?_
      · intro hcomplete
        have hsome : ofString? (trimmed reference) ≠ none := by simp [hnew.name]
        rw [hargument.find?_eq hsome (by rw [nesting_trimmed]; exact hless),
          find?_resolvePlain_of_plain (ofString?_definition hnew.name) hsome,
          hnew.find?_eq_none hcomplete]
      · intro hcomplete
        have hdepth := isComplete_trimmed_iff.mp hcomplete
        have hargumentStands := hstands (isComplete_trimmed_iff.mpr (by omega))
        rwa [trimmed_of_mem_arguments hnew.name hfirst] at hargumentStands
  | @definition _ _ _ generic hnew _ hother =>
      refine (htruthful.resolvePlain hhandles generic.definition).remember_instance fun _ => ?_
      exact .definition hnew.name hother (settled_resolvePlain htruthful.anchored _)

/-! ### Runs -/

theorem Truthful.step (h : Truthful scope builder) (hhandles : scope.HandlesDiffer)
    (hstep : Step scope builder next) : Truthful scope next := by
  rcases hstep.labels with hrequest | ⟨hlabels, hids, hinstances, hindex⟩
  · cases hrequest with
    | ensure htype => exact h.ensure hhandles htype
    | @resolve room reference hroom =>
        have hleft : scope.levelsLeft (scope.settings.maxGenericDepth - room) = room :=
          Nat.sub_sub_self hroom
        obtain ⟨branches, hresolution⟩ := resolution_iff.mpr
          (rfl : builder.resolveWithin scope (scope.levelsLeft _) reference = _)
        rw [← hleft]
        exact (hresolution.truthful hhandles h).1
  · have hfind (name : String) : next.graph.find? name = builder.graph.find? name := by
      rw [find?, find?, hindex]
    refine h.extend (hstep.extends h.anchored) hstep.lookup
      (h.anchored.congr hlabels hindex hids) ?_ ?_
    · intro name id _ hnone hid
      rw [hfind, hnone] at hid
      exact absurd hid (by simp)
    · intro name value hvalue
      rw [hinstances] at hvalue
      exact .inl hvalue

theorem Truthful.run (h : Truthful scope builder) (hhandles : scope.HandlesDiffer)
    (hrun : Run scope builder next) : Truthful scope next := by
  induction hrun with
  | refl => exact h
  | tail _ hlast ih => exact ih.step hhandles hlast

/-- The nesting of a name tells how many levels there are to resolve: an instance nests one level
deeper than its deepest argument. A reference that does not nest deeper than the limit allows at its
depth comes to the limit at no level, in whatever state, and more levels would make no difference.
In a conversion it stands for all of its levels from then on. -/
theorem nesting_predicts_resolution :
    (∀ (name : String) (generic : GenericName), ofString? name = some generic →
      (generic.arguments.map nesting).max?.map (1 + ·) = some (nesting name)) ∧
    (∀ (scope : Scope) (builder : Builder) (depth : Nat) (reference : String),
      depth + nesting reference ≤ scope.settings.maxGenericDepth →
      let resolved := builder.resolveWithin scope (scope.settings.maxGenericDepth - depth) reference
      (∃ branches, Resolution scope depth reference builder branches resolved) ∧
      (∀ branches other, Resolution scope depth reference builder branches other →
        other = resolved ∧ Branch.limit ∉ branches) ∧
      ∀ room, nesting reference ≤ room → builder.resolveWithin scope room reference = resolved) ∧
    ∀ (settings : Settings) (target : Option String) (libraries : List Library)
      (files : Files.Tree) (builder : Builder) (depth : Nat) (reference : String),
      let scope : Scope := ⟨settings, Session.withTarget target libraries files⟩
      Run scope {} builder → depth + nesting reference ≤ settings.maxGenericDepth →
      let resolved := builder.resolveWithin scope (settings.maxGenericDepth - depth) reference
      ∀ later, Run scope resolved.2 later →
        StandsFor scope later (trimmed reference) resolved.1 := by
  refine ⟨fun _ _ => max?_nesting_arguments, ?_, ?_⟩
  · intro scope builder depth reference hdepth resolved
    obtain ⟨branches, hresolution⟩ : ∃ branches,
        Resolution scope depth reference builder branches resolved := resolution_iff.mpr rfl
    refine ⟨⟨branches, hresolution⟩, ?_, ?_⟩
    · intro others other hother
      exact ⟨resolution_iff.mp ⟨others, hother⟩, hother.limit_notMem hdepth⟩
    · intro room hroom
      exact (hresolution.eq_resolveWithin (.inr ⟨hdepth, hroom⟩)).symm
  · intro settings target libraries files builder depth reference scope hrun hdepth resolved later
      hlater
    have hhandles : scope.HandlesDiffer := fun _ ha _ hb => Session.eq_of_handle_eq ha hb
    have hstart := (truthful_seed scope).run hhandles hrun
    obtain ⟨branches, hresolution⟩ : ∃ branches,
        Resolution scope depth reference builder branches resolved := resolution_iff.mpr rfl
    obtain ⟨hkept, hstands⟩ := hresolution.truthful hhandles hstart
    exact (hstands (isComplete_trimmed_iff.mpr hdepth)).mono
      (Run.extends hlater hkept.anchored hhandles).1 (Run.lookup hlater)

/-- A truth value that may be missing in two ways. -/
def doubtReference : String := "System.Nullable<System.Nullable<System.Boolean>>"

/-- A scope without libraries in which so many levels are resolved. -/
def emptyScope (limit : Nat) : Scope :=
  ⟨{ maxGenericDepth := limit }, Session.withTarget none [] {}⟩

/-- One level deep, a limit of three is enough for a reference of two levels, and with a limit of
two its inner level comes to it. The stray bracket in front of other arguments does not count. -/
theorem nesting_predicts_resolution_doubt :
    let resolved := ({} : Builder).resolveWithin (emptyScope 3) 2 doubtReference
    (ofString? "a><b, c<d>>" = some ⟨"a>`2", ["b", "c<d>"]⟩ ∧
      (["b", "c<d>"].map nesting).max?.map (1 + ·) = some (nesting "a><b, c<d>>")) ∧
    (1 + nesting doubtReference ≤ 3 ∧
      (∃ branches, Resolution (emptyScope 3) 1 doubtReference {} branches resolved ∧
        Branch.limit ∉ branches) ∧
      ({} : Builder).resolveWithin (emptyScope 3) 9 doubtReference = resolved) ∧
    StandsFor (emptyScope 3) resolved.2 (trimmed doubtReference) resolved.1 ∧
    ∃ cut, Resolution (emptyScope 2) 1 doubtReference {} [.synthesis, .limit] cut := by
  have hdepth : 1 + nesting doubtReference ≤ 3 := by decide +kernel
  have hname : ofString? "a><b, c<d>>" = some ⟨"a>`2", ["b", "c<d>"]⟩ := by decide +kernel
  obtain ⟨hnesting, hlevels, hstands⟩ := nesting_predicts_resolution
  obtain ⟨⟨branches, hresolution⟩, hlimit, hmore⟩ :=
    hlevels (emptyScope 3) {} 1 doubtReference hdepth
  have houter : IsNewInstance (emptyScope 2) 1 doubtReference {}
      ⟨nullableDefinition, ["System.Nullable<System.Boolean>"]⟩ :=
    ⟨by decide +kernel, by decide +kernel⟩
  have hinner : IsNewInstance (emptyScope 2) 2 "System.Nullable<System.Boolean>"
      (({} : Builder).resolvePlain (emptyScope 2) nullableDefinition).2
      ⟨nullableDefinition, ["System.Boolean"]⟩ :=
    ⟨by decide +kernel, by decide +kernel⟩
  refine ⟨⟨hname, hnesting _ _ hname⟩, ⟨hdepth, ?_, hmore 9 (by decide +kernel)⟩, ?_, ?_⟩
  · exact ⟨branches, hresolution, (hlimit _ _ hresolution).2⟩
  · exact hstands { maxGenericDepth := 3 } none [] {} _ 1 doubtReference .refl hdepth _ .refl
  · exact ⟨_, .synthesis houter (by decide) (by decide +kernel) (.limit hinner (by decide))⟩

end XamlAssist.Conversion
