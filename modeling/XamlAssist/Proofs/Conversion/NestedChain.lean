import XamlAssist.Proofs.Conversion.Names
import XamlAssist.Proofs.GenericName

/-!
# Chains of nested instances

A reference such as `A<B<C>>` stands for a chain of types, one for each level that is resolved. What
an instance stands for is remembered, by its name if all its levels are resolved and with the number
of levels that were left if not. Main statement: meeting types keeps what is remembered right, and
so does adding and remembering an instance that has the right chain.
-/

namespace XamlAssist.Conversion

open TypeGraph GenericName

/-- A reference whose levels are instances of generic types for which there are types of their
own. -/
structure IsNested (heads : List (List Char)) (inner : List Char) : Prop where
  levels : ∀ head ∈ heads, Builder.isSynthesized (definitionOf head) = true
  inner : IsPlainName inner

variable {heads : List (List Char)} {head inner : List Char}

theorem IsNested.tail (h : IsNested (head :: heads) inner) : IsNested heads inner :=
  ⟨fun other hmem => h.levels other (List.mem_cons_of_mem head hmem), h.inner⟩

private theorem mem_definitions_of_isSynthesized {definition : String}
    (h : Builder.isSynthesized definition = true) :
    definition ∈ nullableDefinition :: collectionDefinitions := by
  simpa [Builder.isSynthesized, isCollection] using h

theorem IsNested.isPlainName (h : IsNested heads inner) : ∀ head ∈ heads, IsPlainName head :=
  fun head hmem =>
    isPlainName_of_definitionOf_mem (mem_definitions_of_isSynthesized (h.levels head hmem))

theorem IsNested.nesting_eq (h : IsNested heads inner) :
    nesting (nestedName heads inner) = heads.length :=
  nesting_nestedName h.isPlainName h.inner

/-- A name is that of an instance of `head`, whose argument is the rest of a nested reference. -/
structure Spells (name : String) (head : List Char) (heads : List (List Char))
    (inner : List Char) : Prop where
  nested : IsNested (head :: heads) inner
  name_eq : name = nestedName (head :: heads) inner

theorem Spells.nesting_eq {name : String} (h : Spells name head heads inner) :
    nesting name = heads.length + 1 := by
  rw [h.name_eq, h.nested.nesting_eq, List.length_cons]

theorem Spells.ofString? {name : String} (h : Spells name head heads inner) :
    GenericName.ofString? name = some ⟨definitionOf head, [nestedName heads inner]⟩ := by
  rw [h.name_eq, ofString?_nestedName h.nested.isPlainName h.nested.inner]

theorem Spells.ofString?_ne_none {name : String} (h : Spells name head heads inner) :
    GenericName.ofString? name ≠ none := by
  rw [h.ofString?]
  exact Option.some_ne_none _

theorem Spells.generic_eq {name : String} (h : Spells name head heads inner)
    {generic : GenericName} (hname : GenericName.ofString? name = some generic) :
    generic = ⟨definitionOf head, [nestedName heads inner]⟩ :=
  (Option.some.inj (h.ofString?.symm.trans hname)).symm

/-- The name at the end of the chain when `room` levels are resolved: the innermost argument or the
generic type of the first level that is left out. -/
def endName (heads : List (List Char)) (inner : List Char) (room : Nat) : String :=
  match heads[room]? with
  | none => String.ofList inner
  | some head => definitionOf head

theorem IsNested.exists_endName (h : IsNested heads inner) (room : Nat) :
    ∃ name, IsPlainName name ∧ endName heads inner room = String.ofList name := by
  unfold endName
  split
  · exact ⟨inner, h.inner, rfl⟩
  · next head hhead =>
      have hmem := mem_definitions_of_isSynthesized (h.levels head (List.mem_of_getElem? hhead))
      exact ⟨(definitionOf head).toList, isPlainName_definition hmem, String.ofList_toList.symm⟩

theorem IsNested.ofString?_endName (h : IsNested heads inner) (room : Nat) :
    GenericName.ofString? (endName heads inner room) = none := by
  obtain ⟨name, hname, heq⟩ := h.exists_endName room
  rw [heq, ofString?_plain hname]

private theorem endName_of_le {room : Nat} (h : heads.length ≤ room) :
    endName heads inner room = String.ofList inner := by
  rw [endName, List.getElem?_eq_none h]

/-! ### Chains -/

/-- What the type of an instance of `head` leads on to. -/
def argumentOf (head : List Char) (node : Node) : Option TypeId :=
  if definitionOf head = nullableDefinition then node.underlying else node.items

/-- The types of the instances, from the outside in, and what the last of them leads on to. -/
inductive Linked (graph : TypeGraph) (inner : List Char) :
    List (List Char) → Option TypeId → List TypeId → Option TypeId → Prop
  | done {heads : List (List Char)} {value : Option TypeId} :
      Linked graph inner heads value [] value
  | link {head : List Char} {heads : List (List Char)} {id : TypeId} {node : Node}
      {ids : List TypeId} {last : Option TypeId} :
      graph.get? id = some node → IsInstance node →
      node.fullName = nestedName (head :: heads) inner →
      Linked graph inner heads (argumentOf head node) ids last →
      Linked graph inner (head :: heads) (some id) (id :: ids) last

/-- A chain of `room` levels, or of as many as the reference has, whose end is settled. -/
def Chain (scope : Scope) (builder : Builder) (heads : List (List Char)) (inner : List Char)
    (room : Nat) (value : Option TypeId) : Prop :=
  ∃ ids last, ids.length = min heads.length room ∧ Linked builder.graph inner heads value ids last ∧
    Settled scope builder (endName heads inner room) last

variable {scope : Scope} {builder next : Builder} {room : Nat} {value : Option TypeId}

theorem Linked.mono {ids : List TypeId} {last : Option TypeId}
    (h : Linked builder.graph inner heads value ids last)
    (hextends : Extends scope builder next) : Linked next.graph inner heads value ids last := by
  induction h with
  | done => exact .done
  | @link head heads id node ids last hnode hinstance hname _ ih =>
      obtain ⟨other, hother, hotherInstance, hfull, hunderlying, hitems⟩ :=
        hextends.instances hnode hinstance
      refine .link hother hotherInstance (hfull.trans hname) ?_
      rw [argumentOf, hunderlying, hitems]
      exact ih

theorem Linked.exists_id {graph : TypeGraph} {ids : List TypeId} {last : Option TypeId}
    (h : Linked graph inner heads value ids last) (hids : 0 < ids.length) :
    ∃ id, value = some id := by
  cases h with
  | done => exact absurd hids (by simp)
  | @link _ _ id => exact ⟨id, rfl⟩

theorem Chain.mono (h : Chain scope builder heads inner room value) (hnested : IsNested heads inner)
    (hextends : Extends scope builder next) : Chain scope next heads inner room value := by
  obtain ⟨ids, last, hlength, hlinked, hsettled⟩ := h
  exact ⟨ids, last, hlength, hlinked.mono hextends,
    hsettled.mono (hnested.ofString?_endName room) hextends⟩

theorem Chain.done (hroom : min heads.length room = 0)
    (h : Settled scope builder (endName heads inner room) value) :
    Chain scope builder heads inner room value :=
  ⟨[], value, hroom.symm, .done, h⟩

theorem Chain.link {id : TypeId} {node : Node} (hnode : builder.graph.get? id = some node)
    (hinstance : IsInstance node) (hname : node.fullName = nestedName (head :: heads) inner)
    (h : Chain scope builder heads inner room (argumentOf head node)) :
    Chain scope builder (head :: heads) inner (room + 1) (some id) := by
  obtain ⟨ids, last, hlength, hlinked, hsettled⟩ := h
  refine ⟨id :: ids, last, ?_, .link hnode hinstance hname hlinked, hsettled⟩
  rw [List.length_cons, List.length_cons, hlength]
  omega

theorem Chain.of_le {other : Nat} (h : Chain scope builder heads inner room value)
    (hroom : heads.length ≤ room) (hother : heads.length ≤ other) :
    Chain scope builder heads inner other value := by
  obtain ⟨ids, last, hlength, hlinked, hsettled⟩ := h
  rw [endName_of_le hroom] at hsettled
  refine ⟨ids, last, by omega, hlinked, ?_⟩
  rw [endName_of_le hother]
  exact hsettled

/-! ### What is remembered -/

/-- What is remembered of a nested reference is right: the type with its name has a complete chain,
and what was cut off has as many levels as were left. -/
structure Faithful (scope : Scope) (builder : Builder) : Prop where
  anchored : Anchored scope builder
  found : ∀ {name : String} {head : List Char} {heads : List (List Char)} {inner : List Char}
    {id : TypeId}, Spells name head heads inner → builder.graph.find? name = some id →
      heads.length + 1 ≤ scope.settings.maxGenericDepth ∧
        Chain scope builder (head :: heads) inner (heads.length + 1) (some id)
  complete : ∀ {name : String} {head : List Char} {heads : List (List Char)} {inner : List Char}
    {value : Option TypeId}, Spells name head heads inner →
      builder.instances.lookup ⟨name, none⟩ = some value → builder.graph.find? name ≠ none
  cut : ∀ {name : String} {head : List Char} {heads : List (List Char)} {inner : List Char}
    {room : Nat} {value : Option TypeId}, Spells name head heads inner →
      builder.instances.lookup ⟨name, some room⟩ = some value →
        Chain scope builder (head :: heads) inner room value

theorem faithful_seed (scope : Scope) : Faithful scope {} := by
  refine ⟨anchored_seed scope, ?_, fun _ h => absurd h (by simp), fun _ h => absurd h (by simp)⟩
  intro name head heads inner id hspells hfind
  have hnone := find?_seed_eq_none hspells.ofString?_ne_none
  exact absurd (hnone.symm.trans hfind) (by simp)

theorem Faithful.congr (h : Faithful scope builder) (hextends : Extends scope builder next)
    (hanchored : Anchored scope next)
    (hfind : ∀ name, GenericName.ofString? name ≠ none →
      next.graph.find? name = builder.graph.find? name)
    (hinstances : next.instances = builder.instances) : Faithful scope next := by
  refine ⟨hanchored, ?_, ?_, ?_⟩
  · intro name head heads inner id hspells hid
    rw [hfind name hspells.ofString?_ne_none] at hid
    obtain ⟨hlength, hchain⟩ := h.found hspells hid
    exact ⟨hlength, hchain.mono hspells.nested hextends⟩
  · intro name head heads inner value hspells hvalue
    rw [hinstances] at hvalue
    rw [hfind name hspells.ofString?_ne_none]
    exact h.complete hspells hvalue
  · intro name head heads inner room value hspells hvalue
    rw [hinstances] at hvalue
    exact (h.cut hspells hvalue).mono hspells.nested hextends

/-- No type of the session is named like an instance. -/
def Scope.NoInstances (scope : Scope) : Prop :=
  ∀ type ∈ scope.session.types, GenericName.ofString? type.fullName = none

private theorem find?_ensure (hsession : scope.NoInstances) (builder : Builder) {type : SessionType}
    (htype : type ∈ scope.session.types) {name : String}
    (h : GenericName.ofString? name ≠ none) :
    (builder.ensure type).2.graph.find? name = builder.graph.find? name := by
  refine find?_ensure_of_ne builder fun heq => h ?_
  rw [← heq]
  exact hsession type htype

theorem Faithful.ensure (h : Faithful scope builder) (hhandles : scope.HandlesDiffer)
    (hsession : scope.NoInstances) {type : SessionType} (htype : type ∈ scope.session.types) :
    Faithful scope (builder.ensure type).2 :=
  h.congr (Grow.ensure htype).extends (h.anchored.grow hhandles (.ensure htype))
    (fun _ => find?_ensure hsession builder htype) (instances_ensure builder type)

theorem find?_resolvePlain (hsession : scope.NoInstances) (plain : String) (builder : Builder)
    {name : String} (h : GenericName.ofString? name ≠ none) :
    (builder.resolvePlain scope plain).2.graph.find? name = builder.graph.find? name := by
  rcases resolvePlain_cases scope plain builder with heq | ⟨type, htype, heq⟩
  · rw [heq]
  · rw [heq, find?_ensure hsession builder htype h]

theorem Faithful.resolvePlain (h : Faithful scope builder) (hhandles : scope.HandlesDiffer)
    (hsession : scope.NoInstances) (name : String) :
    Faithful scope (builder.resolvePlain scope name).2 := by
  rcases resolvePlain_cases scope name builder with heq | ⟨type, htype, heq⟩
  · rw [heq]
    exact h
  · rw [heq]
    exact h.ensure hhandles hsession htype

theorem Faithful.remember (h : Faithful scope builder) {name : String} {left : Option Nat}
    (hkey : ∀ {head heads inner}, Spells name head heads inner →
      (left = none → builder.graph.find? name ≠ none) ∧
      ∀ room, left = some room → Chain scope builder (head :: heads) inner room value) :
    Faithful scope (Builder.remember ⟨name, left⟩ (value, builder)).2 := by
  have hextends : Extends scope builder (Builder.remember ⟨name, left⟩ (value, builder)).2 :=
    (Grow.remember (⟨name, left⟩, value)).extends
  refine ⟨h.anchored.congr rfl rfl rfl, ?_, ?_, ?_⟩
  · intro other head heads inner id hspells hid
    obtain ⟨hlength, hchain⟩ := h.found hspells hid
    exact ⟨hlength, hchain.mono hspells.nested hextends⟩
  · intro other head heads inner known hspells hlookup
    rw [Builder.remember, List.lookup_cons] at hlookup
    split at hlookup
    · next heq =>
        obtain ⟨rfl, rfl⟩ := InstanceKey.mk.inj (eq_of_beq heq)
        exact (hkey hspells).1 rfl
    · exact h.complete hspells hlookup
  · intro other head heads inner room known hspells hlookup
    rw [Builder.remember, List.lookup_cons] at hlookup
    split at hlookup
    · next heq =>
        obtain ⟨rfl, rfl⟩ := InstanceKey.mk.inj (eq_of_beq heq)
        obtain rfl := Option.some.inj hlookup
        exact ((hkey hspells).2 room rfl).mono hspells.nested hextends
    · exact (h.cut hspells hlookup).mono hspells.nested hextends

theorem Faithful.add (h : Faithful scope builder) {node : Node} (hnode : IsInstance node)
    (hhandles : scope.HandlesDiffer)
    (hnew : ∀ {head heads inner}, Spells node.fullName head heads inner → node.isListed = true →
      heads.length + 1 ≤ scope.settings.maxGenericDepth ∧
      Chain scope (builder.add node).2 (head :: heads) inner (heads.length + 1)
        (some builder.graph.types.length)) :
    Faithful scope (builder.add node).2 := by
  have hextends : Extends scope builder (builder.add node).2 := (Grow.add hnode).extends
  refine ⟨h.anchored.grow hhandles (.add hnode), ?_, ?_, ?_⟩
  · intro name head heads inner id hspells hid
    rcases find?_add_cases hid with hold | ⟨hlisted, rfl, rfl⟩
    · obtain ⟨hlength, hchain⟩ := h.found hspells hold
      exact ⟨hlength, hchain.mono hspells.nested hextends⟩
    · exact hnew hspells hlisted
  · intro name head heads inner other hspells hlookup hnone
    obtain ⟨id, hid⟩ := Option.ne_none_iff_exists'.mp (h.complete hspells hlookup)
    exact absurd ((hextends.find?_some hid).symm.trans hnone) (by simp)
  · intro name head heads inner room other hspells hlookup
    exact (h.cut hspells hlookup).mono hspells.nested hextends

end XamlAssist.Conversion
