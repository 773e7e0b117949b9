import XamlAssist.Proofs.Conversion.NestedChain
import XamlAssist.Proofs.Session

/-!
# What references to nested instances stand for

Main statement: `resolve_nestedName`, what was resolved before makes no difference to what a
reference such as `A<B<C>>` stands for.
-/

namespace XamlAssist.Conversion

open TypeGraph GenericName

variable {scope : Scope} {builder next : Builder} {heads : List (List Char)}
  {head inner : List Char} {room : Nat} {value : Option TypeId}

/-! ### Instances -/

/-- What resolving `room` levels of a nested reference has to give. -/
structure Answers (scope : Scope) (builder : Builder) (heads : List (List Char))
    (inner : List Char) (room : Nat) (resolved : Option TypeId × Builder) : Prop where
  chain : Chain scope resolved.2 heads inner room resolved.1
  found : heads ≠ [] → heads.length ≤ room →
    resolved.2.graph.find? (nestedName heads inner) = resolved.1
  /-- The reference does not lead to a type with more levels. -/
  unlisted : ∀ {name : String} {head : List Char} {others : List (List Char)} {last : List Char},
    Spells name head others last → heads.length ≤ others.length →
      builder.graph.find? name = none → resolved.2.graph.find? name = none

/-- The key under which an instance is remembered. -/
def keyOf (name : String) (room : Nat) : InstanceKey :=
  ⟨name, if decide (nesting name ≤ room) then none else some room⟩

private theorem nesting_le_of_keyOf {name : String} (h : (keyOf name room).room = none) :
    nesting name ≤ room := by
  simpa [keyOf] using h

private theorem eq_of_keyOf {name : String} {other : Nat}
    (h : (keyOf name room).room = some other) :
    other = room := by
  by_cases hle : nesting name ≤ room
  · simp [keyOf, hle] at h
  · simpa [keyOf, hle, eq_comm] using h

private theorem find?_of_unknown {name : String} (hle : nesting name ≤ room)
    (h : builder.instance? (decide (nesting name ≤ room)) (keyOf name room) = none) :
    builder.graph.find? name = none := by
  rw [Builder.instance?, decide_eq_true hle, if_pos rfl] at h
  cases hfind : builder.graph.find? name with
  | none => rfl
  | some id => simp [keyOf, hfind] at h

theorem Faithful.known (h : Faithful scope builder) {name : String}
    (hspells : Spells name head heads inner)
    (hknown : builder.instance? (decide (nesting name ≤ room)) (keyOf name room) = some value) :
    Answers scope builder (head :: heads) inner room (value, builder) := by
  rw [Builder.instance?, keyOf, hspells.nesting_eq] at hknown
  by_cases hroom : heads.length + 1 ≤ room
  · simp only [hroom, decide_true, if_true] at hknown
    cases hfind : builder.graph.find? name with
    | none =>
        rw [hfind] at hknown
        exact absurd hfind (h.complete hspells hknown)
    | some id =>
        rw [hfind] at hknown
        obtain rfl := Option.some.inj hknown
        have hchain := (h.found hspells hfind).2
        rw [hspells.name_eq] at hfind
        exact ⟨hchain.of_le (Nat.le_refl _) hroom, fun _ _ => hfind, fun _ _ hnone => hnone⟩
  · simp only [hroom, decide_false] at hknown
    exact ⟨h.cut hspells hknown, fun _ hle => absurd hle hroom, fun _ _ hnone => hnone⟩

theorem Chain.add {node : Node} (h : Chain scope builder heads inner room (argumentOf head node))
    (hspells : Spells node.fullName head heads inner) (hinstance : IsInstance node) :
    Chain scope (builder.add node).2 (head :: heads) inner (room + 1)
      (some builder.graph.types.length) :=
  .link (get?_add_length builder.graph node) hinstance hspells.name_eq
    (h.mono hspells.nested.tail (Grow.add hinstance).extends)

/-- An instance whose argument is resolved is added and remembered. -/
theorem Faithful.synthesize (h : Faithful scope builder) (hhandles : scope.HandlesDiffer)
    (hroom : room + 1 ≤ scope.settings.maxGenericDepth) {node : Node}
    (hinstance : IsInstance node)
    (hlisted : node.isListed = decide (nesting node.fullName ≤ room + 1))
    (hargument : ∀ {head heads inner}, Spells node.fullName head heads inner →
      Chain scope builder heads inner room (argumentOf head node) ∧
      (heads.length ≤ room → builder.graph.find? node.fullName = none)) :
    let resolved := Builder.remember (keyOf node.fullName (room + 1))
      (some builder.graph.types.length, (builder.add node).2)
    Faithful scope resolved.2 ∧ ∀ {head heads inner}, Spells node.fullName head heads inner →
      Chain scope resolved.2 (head :: heads) inner (room + 1) resolved.1 ∧
      (heads.length ≤ room → resolved.2.graph.find? node.fullName = resolved.1) := by
  intro resolved
  have hchain {head : List Char} {heads : List (List Char)} {inner : List Char}
      (hspells : Spells node.fullName head heads inner) :
      Chain scope (builder.add node).2 (head :: heads) inner (room + 1)
        (some builder.graph.types.length) :=
    (hargument hspells).1.add hspells hinstance
  have hfind {head : List Char} {heads : List (List Char)} {inner : List Char}
      (hspells : Spells node.fullName head heads inner) (hle : heads.length ≤ room) :
      (builder.add node).2.graph.find? node.fullName = some builder.graph.types.length := by
    have htrue : node.isListed = true := by
      rw [hlisted, hspells.nesting_eq, decide_eq_true_eq]
      exact Nat.succ_le_succ hle
    exact find?_add_self htrue ((hargument hspells).2 hle)
  have hadded : Faithful scope (builder.add node).2 := by
    refine h.add hinstance hhandles ?_
    intro head heads inner hspells htrue
    have hle : heads.length + 1 ≤ room + 1 := by
      rw [hlisted, hspells.nesting_eq, decide_eq_true_eq] at htrue
      exact htrue
    exact ⟨hle.trans hroom, (hchain hspells).of_le hle (Nat.le_refl _)⟩
  constructor
  · refine hadded.remember ?_
    intro head heads inner hspells
    constructor
    · intro hcomplete hnone
      have hle := nesting_le_of_keyOf hcomplete
      rw [hspells.nesting_eq] at hle
      have hsome := hfind hspells (Nat.le_of_succ_le_succ hle)
      exact absurd (hsome.symm.trans hnone) (by simp)
    · intro other hother
      rw [eq_of_keyOf hother]
      exact hchain hspells
  · intro head heads inner hspells
    have hlast : Extends scope (builder.add node).2 resolved.2 := (Grow.remember _).extends
    exact ⟨(hchain hspells).mono hspells.nested hlast, hfind hspells⟩

theorem Faithful.bare (h : Faithful scope builder) {name : String} {generic : GenericName}
    (hname : GenericName.ofString? name = some generic)
    (hsettled : Settled scope builder generic.definition value)
    (hbare : ∀ {head heads inner}, Spells name head heads inner → room = 0) :
    let resolved := Builder.remember (keyOf name room) (value, builder)
    Faithful scope resolved.2 ∧ ∀ {head heads inner}, Spells name head heads inner →
      Chain scope resolved.2 (head :: heads) inner room resolved.1 := by
  intro resolved
  have hchain {head : List Char} {heads : List (List Char)} {inner : List Char}
      (hspells : Spells name head heads inner) :
      Chain scope builder (head :: heads) inner room value := by
    obtain rfl := hspells.generic_eq hname
    rw [hbare hspells]
    exact .done (Nat.min_zero _) hsettled
  constructor
  · refine h.remember ?_
    intro head heads inner hspells
    constructor
    · intro hcomplete
      have hle := nesting_le_of_keyOf hcomplete
      rw [hspells.nesting_eq, hbare hspells] at hle
      exact absurd hle (by simp)
    · intro other hother
      rw [eq_of_keyOf hother]
      exact hchain hspells
  · intro head heads inner hspells
    exact (hchain hspells).mono hspells.nested (Grow.remember _).extends

/-- A way to resolve references that is right for nested ones of `room` levels. -/
def Resolves (scope : Scope) (room : Nat) (resolve : String → Builder → Option TypeId × Builder) :
    Prop :=
  ∀ reference builder, Faithful scope builder → Faithful scope (resolve reference builder).2 ∧
    ∀ {heads inner}, IsNested heads inner → reference = nestedName heads inner →
      Answers scope builder heads inner room (resolve reference builder)

/-- The type that is added for an instance. -/
def addedNode (graph : TypeGraph) (room : Nat) (name : String) (generic : GenericName)
    (definition argument : Option TypeId) : Node :=
  { Builder.instanceNode graph name generic definition argument with
    isListed := decide (nesting name ≤ room) }

private theorem addedNode_isInstance (graph : TypeGraph) (room : Nat) {name : String}
    {generic : GenericName} (h : GenericName.ofString? name = some generic)
    (definition argument : Option TypeId) :
    IsInstance (addedNode graph room name generic definition argument) := by
  have hinstance := instanceNode_isInstance graph h definition argument
  exact ⟨hinstance.handle, hinstance.isBuiltin, hinstance.name⟩

private theorem fullName_addedNode (graph : TypeGraph) (room : Nat) (name : String)
    (generic : GenericName) (definition argument : Option TypeId) :
    (addedNode graph room name generic definition argument).fullName = name :=
  fullName_instanceNode graph name generic definition argument

private theorem argumentOf_addedNode (graph : TypeGraph) (room : Nat) (name : String)
    {generic : GenericName} (h : generic.definition = definitionOf head)
    (definition argument : Option TypeId) :
    argumentOf head (addedNode graph room name generic definition argument) = argument := by
  unfold addedNode Builder.instanceNode argumentOf
  rw [h]
  split <;> rfl

/-- An instance is known, it becomes a type of its own, or it stands for its generic type. -/
theorem resolveInstance_cases (scope : Scope) (room : Nat)
    (resolveArgument : Option (String → Builder → Option TypeId × Builder)) (name : String)
    (generic : GenericName) (builder : Builder) :
    let resolved := builder.resolveInstance scope room resolveArgument name generic
    let known := builder.instance? (decide (nesting name ≤ room)) (keyOf name room)
    let definition := builder.resolvePlain scope generic.definition
    (∃ value, known = some value ∧ resolved = (value, builder)) ∨
      (known = none ∧ ∃ resolve, resolveArgument = some resolve ∧
        let argument := resolve (generic.arguments.headD "") definition.2
        resolved = Builder.remember (keyOf name room) (some argument.2.graph.types.length,
          (argument.2.add (addedNode argument.2.graph room name generic definition.1
            argument.1)).2)) ∨
      ((resolveArgument = none ∨ Builder.isSynthesized generic.definition = false) ∧
        resolved = Builder.remember (keyOf name room) definition) := by
  intro resolved known definition
  cases hknown : known with
  | some value =>
      refine .inl ⟨value, rfl, ?_⟩
      simp only [resolved, Builder.resolveInstance]
      simp only [known, keyOf] at hknown
      rw [hknown]
  | none =>
      right
      simp only [known, keyOf] at hknown
      simp only [resolved, Builder.resolveInstance, hknown]
      cases resolveArgument with
      | none => exact .inr ⟨.inl rfl, rfl⟩
      | some resolve =>
          cases hsynthesized : Builder.isSynthesized generic.definition with
          | false => exact .inr ⟨.inr rfl, rfl⟩
          | true => exact .inl ⟨trivial, resolve, rfl, rfl⟩

theorem Resolves.synthesize {resolve : String → Builder → Option TypeId × Builder}
    (hresolves : Resolves scope room resolve) (hhandles : scope.HandlesDiffer)
    (hsession : scope.NoInstances) (hroom : room + 1 ≤ scope.settings.maxGenericDepth)
    {name : String} {generic : GenericName} (hname : GenericName.ofString? name = some generic)
    (h : Faithful scope builder)
    (hunknown : builder.instance? (decide (nesting name ≤ room + 1)) (keyOf name (room + 1)) =
      none) :
    let definition := builder.resolvePlain scope generic.definition
    let argument := resolve (generic.arguments.headD "") definition.2
    let resolved := Builder.remember (keyOf name (room + 1))
      (some argument.2.graph.types.length, (argument.2.add (addedNode argument.2.graph (room + 1)
        name generic definition.1 argument.1)).2)
    Faithful scope resolved.2 ∧ ∀ {head heads inner}, Spells name head heads inner →
      Answers scope builder (head :: heads) inner (room + 1) resolved := by
  intro definition argument resolved
  have hplain := h.resolvePlain hhandles hsession generic.definition
  obtain ⟨hargument, hanswers⟩ := hresolves (generic.arguments.headD "") definition.2 hplain
  have hanswer {head : List Char} {heads : List (List Char)} {inner : List Char}
      (hspells : Spells name head heads inner) :
      Answers scope definition.2 heads inner room argument :=
    hanswers hspells.nested.tail (by rw [hspells.generic_eq hname]; rfl)
  have hkept {head : List Char} {heads : List (List Char)} {inner : List Char}
      (hspells : Spells name head heads inner) {other : String} {outer : List Char}
      {others : List (List Char)} {last : List Char} (hother : Spells other outer others last)
      (hle : heads.length ≤ others.length) (hfind : builder.graph.find? other = none) :
      argument.2.graph.find? other = none := by
    refine (hanswer hspells).unlisted hother hle ?_
    exact (find?_resolvePlain hsession _ builder hother.ofString?_ne_none).trans hfind
  let node := addedNode argument.2.graph (room + 1) name generic definition.1 argument.1
  have hfull : node.fullName = name := fullName_addedNode _ _ _ _ _ _
  have hnew {head : List Char} {heads : List (List Char)} {inner : List Char}
      (hspells : Spells name head heads inner) :
      Chain scope argument.2 heads inner room (argumentOf head node) ∧
        (heads.length ≤ room → argument.2.graph.find? name = none) := by
    constructor
    · have hdefinition : generic.definition = definitionOf head := by
        rw [hspells.generic_eq hname]
      rw [argumentOf_addedNode _ _ _ hdefinition]
      exact (hanswer hspells).chain
    · intro hle
      have hcomplete : nesting name ≤ room + 1 := by
        rw [hspells.nesting_eq]
        exact Nat.succ_le_succ hle
      exact hkept hspells hspells (Nat.le_refl _) (find?_of_unknown hcomplete hunknown)
  obtain ⟨hfaithful, hchain⟩ := @Faithful.synthesize _ _ _ hargument hhandles hroom node
    (addedNode_isInstance _ _ hname _ _) (by rw [hfull]; rfl) (by rw [hfull]; exact hnew)
  rw [hfull] at hfaithful hchain
  refine ⟨hfaithful, ?_⟩
  intro head heads inner hspells
  obtain ⟨hlinked, hfound⟩ := hchain hspells
  refine ⟨hlinked, ?_, ?_⟩
  · intro _ hle
    rw [← hspells.name_eq]
    exact hfound (Nat.le_of_succ_le_succ hle)
  · intro other outer others last hother hle hfind
    have hne : node.fullName ≠ other := by
      intro heq
      have hnesting := congrArg nesting (hfull.symm.trans heq)
      rw [hspells.nesting_eq, hother.nesting_eq] at hnesting
      exact absurd hle (by rw [List.length_cons]; omega)
    exact (find?_add_of_ne fun _ => hne).trans
      (hkept hspells hother (Nat.le_of_succ_le hle) hfind)

private theorem resolveInstance_resolves (hhandles : scope.HandlesDiffer)
    (hsession : scope.NoInstances) (hroom : room ≤ scope.settings.maxGenericDepth)
    {resolveArgument : Option (String → Builder → Option TypeId × Builder)}
    (hnone : resolveArgument = none → room = 0)
    (hsome : ∀ resolve ∈ resolveArgument, ∃ left, room = left + 1 ∧ Resolves scope left resolve)
    {name : String} {generic : GenericName} (hname : GenericName.ofString? name = some generic)
    (h : Faithful scope builder) :
    let resolved := builder.resolveInstance scope room resolveArgument name generic
    Faithful scope resolved.2 ∧ ∀ {head heads inner}, Spells name head heads inner →
      Answers scope builder (head :: heads) inner room resolved := by
  intro resolved
  rcases resolveInstance_cases scope room resolveArgument name generic builder with
    ⟨value, hknown, heq⟩ | ⟨hunknown, resolve, hresolve, heq⟩ | ⟨hbare, heq⟩
  · rw [show resolved = (value, builder) from heq]
    exact ⟨h, fun hspells => h.known hspells hknown⟩
  · obtain ⟨left, rfl, hresolves⟩ := hsome resolve hresolve
    rw [show resolved = _ from heq]
    exact hresolves.synthesize hhandles hsession hroom hname h hunknown
  · have hzero {head : List Char} {heads : List (List Char)} {inner : List Char}
        (hspells : Spells name head heads inner) : room = 0 := by
      have hsynthesized := hspells.nested.levels head List.mem_cons_self
      rw [hspells.generic_eq hname] at hbare
      rcases hbare with hmissing | hother
      · exact hnone hmissing
      · exact absurd (hsynthesized.symm.trans hother) (by simp)
    obtain ⟨hfaithful, hchain⟩ := (h.resolvePlain hhandles hsession generic.definition).bare hname
      (settled_resolvePlain h.anchored generic.definition) hzero
    rw [show resolved = _ from heq]
    refine ⟨hfaithful, ?_⟩
    intro head heads inner hspells
    refine ⟨hchain hspells, ?_, ?_⟩
    · intro _ hle
      rw [hzero hspells] at hle
      exact absurd hle (by simp)
    · intro other outer others last hother _ hfind
      exact (find?_resolvePlain hsession _ builder hother.ofString?_ne_none).trans hfind

/-! ### References -/

private theorem resolveReference_plain {name : List Char} (h : IsPlainName name) (scope : Scope)
    (room : Nat) (resolveArgument : Option (String → Builder → Option TypeId × Builder))
    (builder : Builder) :
    builder.resolveReference scope room resolveArgument (String.ofList name) =
      builder.resolvePlain scope (String.ofList name) := by
  have hne : (String.ofList name).isEmpty = false := by simp [h.ne_nil]
  simp only [Builder.resolveReference, String.toList_ofList, h.trim_eq, hne, ofString?_plain h]
  rfl

private theorem resolveReference_nested {name : String} (hspells : Spells name head heads inner)
    (scope : Scope) (room : Nat)
    (resolveArgument : Option (String → Builder → Option TypeId × Builder)) (builder : Builder) :
    builder.resolveReference scope room resolveArgument name =
      builder.resolveInstance scope room resolveArgument name
        ⟨definitionOf head, [nestedName heads inner]⟩ := by
  have hnested := hspells.nested
  have htrim : String.ofList (Text.trim name.toList) = name := by
    rw [hspells.name_eq, nestedName, String.toList_ofList,
      trim_nested hnested.isPlainName hnested.inner]
  have hne : name.isEmpty = false := by
    simp [hspells.name_eq, nestedName, @nested_ne_nil (head :: heads) inner hnested.inner]
  simp only [Builder.resolveReference, htrim, hne, hspells.ofString?]
  rfl

private theorem resolveReference_resolves (hhandles : scope.HandlesDiffer)
    (hsession : scope.NoInstances) (hroom : room ≤ scope.settings.maxGenericDepth)
    {resolveArgument : Option (String → Builder → Option TypeId × Builder)}
    (hnone : resolveArgument = none → room = 0)
    (hsome : ∀ resolve ∈ resolveArgument, ∃ left, room = left + 1 ∧ Resolves scope left resolve) :
    Resolves scope room (Builder.resolveReference scope room resolveArgument) := by
  intro reference builder h
  constructor
  · unfold Builder.resolveReference
    dsimp only
    split
    · exact h
    split
    · exact h.resolvePlain hhandles hsession _
    · next hname => exact (resolveInstance_resolves hhandles hsession hroom hnone hsome hname h).1
  · intro heads inner hnested heq
    cases heads with
    | nil =>
        rw [heq, show nestedName [] inner = String.ofList inner from rfl,
          resolveReference_plain hnested.inner]
        have hsettled := settled_resolvePlain h.anchored (String.ofList inner)
        refine ⟨.done (Nat.zero_min _) hsettled, fun hne => absurd rfl hne, ?_⟩
        intro other outer others last hother _ hfind
        exact (find?_resolvePlain hsession _ builder hother.ofString?_ne_none).trans hfind
    | cons head heads =>
        have hspells : Spells reference head heads inner := ⟨hnested, heq⟩
        rw [resolveReference_nested hspells]
        exact (resolveInstance_resolves hhandles hsession hroom hnone hsome hspells.ofString? h).2
          hspells

private theorem resolveWithin_resolves (hhandles : scope.HandlesDiffer)
    (hsession : scope.NoInstances) (hroom : room ≤ scope.settings.maxGenericDepth) :
    Resolves scope room (Builder.resolveWithin scope room) := by
  induction room with
  | zero =>
      exact resolveReference_resolves hhandles hsession hroom (fun _ => rfl)
        fun _ hmem => absurd hmem (by simp)
  | succ room ih =>
      refine resolveReference_resolves hhandles hsession hroom (fun h => absurd h (by simp)) ?_
      intro resolve hmem
      obtain rfl := Option.some.inj hmem
      exact ⟨room, rfl, ih (Nat.le_of_succ_le hroom)⟩

/-! ### Runs -/

theorem Faithful.step (h : Faithful scope builder) (hhandles : scope.HandlesDiffer)
    (hsession : scope.NoInstances) (hstep : Step scope builder next) : Faithful scope next := by
  rcases hstep.labels with hrequest | ⟨hlabels, hids, hinstances, hindex⟩
  · cases hrequest with
    | ensure htype => exact h.ensure hhandles hsession htype
    | resolve reference hroom =>
        exact (resolveWithin_resolves hhandles hsession hroom reference builder h).1
  · refine h.congr (hstep.extends h.anchored) (h.anchored.congr hlabels hindex hids) ?_ hinstances
    intro name _
    rw [find?, find?, hindex]

theorem Faithful.run (h : Faithful scope builder) (hhandles : scope.HandlesDiffer)
    (hsession : scope.NoInstances) (hrun : Run scope builder next) : Faithful scope next := by
  induction hrun with
  | refl => exact h
  | tail _ hlast ih => exact ih.step hhandles hsession hlast

/-! ### The end of a chain -/

private theorem Settled.resolve_endName {value : Option TypeId}
    (h : Settled scope builder (endName heads inner room) value) (hnested : IsNested heads inner) :
    (builder.resolve scope (endName heads inner room)).1 = value := by
  obtain ⟨name, hname, heq⟩ := hnested.exists_endName room
  rw [heq] at h ⊢
  rw [Builder.resolve]
  cases scope.settings.maxGenericDepth with
  | zero => rw [Builder.resolveWithin, resolveReference_plain hname, h.resolvePlain]
  | succ left => rw [Builder.resolveWithin, resolveReference_plain hname, h.resolvePlain]

/-- In every state of a conversion, a nested reference stands for a chain of types, one for each
level up to the greatest depth. The chain ends with the innermost argument or with the generic type
of the first level that is left out. The reference leads to its chain by its name from then on,
unless the chain is cut off, when nothing ever does. -/
theorem resolve_nestedName (settings : Settings) (target : Option String)
    (libraries : List Library) (files : Files.Tree)
    (hsession : ∀ type ∈ (Session.withTarget target libraries files).types,
      GenericName.ofString? type.fullName = none)
    (builder : Builder)
    (hrun : Run ⟨settings, Session.withTarget target libraries files⟩ {} builder)
    (heads : List (List Char)) (inner : List Char) (hnested : IsNested heads inner) :
    let scope : Scope := ⟨settings, Session.withTarget target libraries files⟩
    let depth := settings.maxGenericDepth
    let resolved := builder.resolve scope (nestedName heads inner)
    (∃ ids last, ids.length = min heads.length depth ∧
      Linked resolved.2.graph inner heads resolved.1 ids last ∧
      ∀ later, Run scope resolved.2 later →
        (later.resolve scope (endName heads inner depth)).1 = last) ∧
    (0 < heads.length → heads.length ≤ depth → ∃ id, resolved.1 = some id ∧
      ∀ later, Run scope resolved.2 later → later.graph.find? (nestedName heads inner) = some id) ∧
    (depth < heads.length →
      (∀ later, Run scope {} later → later.graph.find? (nestedName heads inner) = none) ∧
      (convert settings scope.session).find? (nestedName heads inner) = none) := by
  intro scope depth resolved
  have hhandles : scope.HandlesDiffer := fun _ ha _ hb => Session.eq_of_handle_eq ha hb
  have hstart := (faithful_seed scope).run hhandles hsession hrun
  obtain ⟨hfaithful, hanswers⟩ := resolveWithin_resolves hhandles hsession (Nat.le_refl _)
    (nestedName heads inner) builder hstart
  obtain ⟨hchain, hfound, -⟩ := hanswers hnested rfl
  obtain ⟨ids, last, hlength, hlinked, hsettled⟩ := hchain
  refine ⟨⟨ids, last, hlength, hlinked, ?_⟩, ?_, ?_⟩
  · intro later hlater
    have hextends := (Run.extends hlater hfaithful.anchored hhandles).1
    exact (hsettled.mono (hnested.ofString?_endName depth) hextends).resolve_endName hnested
  · intro hpos hle
    have hids : 0 < ids.length := by
      rw [hlength]
      exact Nat.lt_min.mpr ⟨hpos, Nat.lt_of_lt_of_le hpos hle⟩
    obtain ⟨id, hid⟩ := hlinked.exists_id hids
    refine ⟨id, hid, ?_⟩
    intro later hlater
    have hextends := (Run.extends hlater hfaithful.anchored hhandles).1
    exact hextends.find?_some ((hfound (List.ne_nil_of_length_pos hpos) hle).trans hid)
  · intro hlt
    have hnone (later : Builder) (hlater : Run scope {} later) :
        later.graph.find? (nestedName heads inner) = none := by
      have hlast := (faithful_seed scope).run hhandles hsession hlater
      cases hfind : later.graph.find? (nestedName heads inner) with
      | none => rfl
      | some id =>
          cases heads with
          | nil => exact absurd hlt (by simp)
          | cons head heads =>
              exact absurd (hlast.found ⟨hnested, rfl⟩ hfind).1 (Nat.not_le_of_lt hlt)
    obtain ⟨final, hfinal, hgraph⟩ := run_convert settings scope.session
    exact ⟨hnone, hgraph ▸ hnone final hfinal⟩

/-- A library whose cards are kept in lists of lists. -/
def shelfLibraries : List Library :=
  [{ name := "App", types := [{ namespaceName := "App", name := "Card" }] }]

/-- The levels of a list of lists that may be missing. -/
def shelfHeads : List (List Char) :=
  ["System.Nullable".toList, "System.Collections.Generic.List".toList,
    "System.Collections.Generic.IList".toList]

/-- With two levels, the list of lists is cut off inside the nullable type even though it was
resolved by itself before. -/
theorem resolve_nestedName_shelf :
    let session := Session.withTarget (some "App") shelfLibraries {}
    let scope : Scope := ⟨{ maxGenericDepth := 2 }, session⟩
    let card := "App.Card".toList
    let builder := (({} : Builder).resolve scope (nestedName shelfHeads.tail card)).2
    let resolved := builder.resolve scope (nestedName shelfHeads card)
    let again := builder.resolve scope (nestedName shelfHeads.tail card)
    (∀ type ∈ session.types, GenericName.ofString? type.fullName = none) ∧
      Run scope {} builder ∧ IsNested shelfHeads card ∧
      endName shelfHeads card 2 = "System.Collections.Generic.IList`1" ∧
      (∃ ids last, ids.length = 2 ∧ Linked resolved.2.graph card shelfHeads resolved.1 ids last ∧
        ∀ later, Run scope resolved.2 later →
          (later.resolve scope (endName shelfHeads card 2)).1 = last) ∧
      (convert { maxGenericDepth := 2 } scope.session).find? (nestedName shelfHeads card) = none ∧
      ∃ id, again.1 = some id ∧ ∀ later, Run scope again.2 later →
        later.graph.find? (nestedName shelfHeads.tail card) = some id := by
  have hsession : ∀ type ∈ (Session.withTarget (some "App") shelfLibraries {}).types,
      GenericName.ofString? type.fullName = none := by decide +kernel
  have hrun := (resolve_requests
    ⟨{ maxGenericDepth := 2 }, Session.withTarget (some "App") shelfLibraries {}⟩
    (nestedName shelfHeads.tail "App.Card".toList) {}).run
  have hcard : IsPlainName "App.Card".toList :=
    isPlainName_of_all (by decide +kernel) (by decide +kernel)
  have hnested : IsNested shelfHeads "App.Card".toList := ⟨by decide +kernel, hcard⟩
  have hlong := resolve_nestedName _ _ _ _ hsession _ hrun _ _ hnested
  have hshort := resolve_nestedName _ _ _ _ hsession _ hrun _ _
    (show IsNested shelfHeads.tail "App.Card".toList from hnested.tail)
  exact ⟨hsession, hrun, hnested, by decide +kernel, hlong.1, (hlong.2.2 (by decide +kernel)).2,
    hshort.2.1 (by decide +kernel) (by decide +kernel)⟩

end XamlAssist.Conversion
