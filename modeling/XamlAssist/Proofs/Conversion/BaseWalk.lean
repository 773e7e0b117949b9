import Mathlib.Data.Finset.Card
import XamlAssist.Proofs.Conversion.BaseChain
import XamlAssist.Proofs.Conversion.Names
import XamlAssist.Proofs.Session

/-!
# The walk to the base types

A walk from a type to its base types comes to every handle at most once, so it ends in every
session, also where types are derived from themselves. The limit on its length only cuts it. Main
statement: `baseChain_finite_walk`.
-/

namespace XamlAssist.Conversion

/-! ### The base type of a type -/

/-- The first type of the session with the name of the definition that the base type is an instance
of. -/
def Scope.HasBase (scope : Scope) (derived base : SessionType) : Prop :=
  ∃ name earlier later, derived.decl.baseType = some name ∧
    scope.session.types = earlier ++ base :: later ∧
    base.fullName = GenericName.definitionName name ∧
    ∀ other ∈ earlier, other.fullName ≠ GenericName.definitionName name

/-- The base type, if one is named, is no type of the session. -/
def Scope.HasNoBase (scope : Scope) (type : SessionType) : Prop :=
  ∀ name, type.decl.baseType = some name →
    ∀ other ∈ scope.session.types, other.fullName ≠ GenericName.definitionName name

/-- What a walk from a type to its base types is. -/
structure IsBaseWalk (scope : Scope) (type : SessionType) (chain : List SessionType) : Prop where
  starts : chain.head? = if scope.settings.maxBaseDepth = 0 then none else some type
  linked : chain.IsChain scope.HasBase
  distinct : (chain.map SessionType.handle).Nodup
  bounded : chain.length ≤ scope.settings.maxBaseDepth
  stops : ∀ last ∈ chain.getLast?, chain.length = scope.settings.maxBaseDepth ∨
    scope.HasNoBase last ∨ ∃ base, scope.HasBase last base ∧
      base.handle ∈ chain.map SessionType.handle

variable {scope : Scope} {type base : SessionType} {chain : List SessionType}
  {visited : List Handle}

private theorem base?_eq_some_iff : scope.base? type = some base ↔ scope.HasBase type base := by
  unfold Scope.base? Scope.type? Scope.HasBase
  cases type.decl.baseType with
  | none => simp
  | some name =>
      simp only [Option.bind_eq_bind, Option.bind_some, List.find?_eq_some_iff_append]
      constructor
      · rintro ⟨hname, earlier, later, htypes, hearlier⟩
        exact ⟨name, earlier, later, rfl, htypes, of_decide_eq_true hname, by simpa using hearlier⟩
      · rintro ⟨_, earlier, later, ⟨⟩, htypes, hname, hearlier⟩
        exact ⟨decide_eq_true hname, earlier, later, htypes, by simpa using hearlier⟩

private theorem base?_eq_none_iff : scope.base? type = none ↔ scope.HasNoBase type := by
  unfold Scope.base? Scope.type? Scope.HasNoBase
  cases type.decl.baseType with
  | none => simp
  | some name => simp [List.find?_eq_none]

private theorem isBaseWalk_baseChain (scope : Scope) (type : SessionType) :
    IsBaseWalk scope type (scope.baseChain type) := by
  obtain ⟨starts, linked, distinct, bounded, maximal⟩ := isBaseChain_baseChain scope type
  refine ⟨starts, linked.imp fun _ _ => base?_eq_some_iff.mp, distinct, bounded, ?_⟩
  intro last hlast
  cases hbase : scope.base? last with
  | none => exact .inr (.inl (base?_eq_none_iff.mp hbase))
  | some base =>
      rcases maximal last hlast base hbase with hmem | hlength
      · exact .inr (.inr ⟨base, base?_eq_some_iff.mp hbase, hmem⟩)
      · exact .inl hlength

/-! ### There is one walk -/

private theorem Scope.HasNoBase.not_hasBase (h : scope.HasNoBase type) :
    ¬ scope.HasBase type base := by
  rintro ⟨name, earlier, later, hname, htypes, hbase, -⟩
  exact h name hname base (htypes ▸ List.mem_append_cons_self) hbase

theorem Scope.HasBase.mem_types (h : scope.HasBase type base) : base ∈ scope.session.types := by
  obtain ⟨name, earlier, later, -, htypes, -⟩ := h
  exact htypes ▸ List.mem_append_cons_self

theorem Scope.HasBase.unique {other : SessionType} (h : scope.HasBase type base)
    (hother : scope.HasBase type other) : base = other :=
  Option.some.inj ((base?_eq_some_iff.mpr h).symm.trans (base?_eq_some_iff.mpr hother))

private theorem begins_or_begins {a b : List SessionType} (ha : a.IsChain scope.HasBase)
    (hb : b.IsChain scope.HasBase) (hhead : a.head? = b.head?) : a <+: b ∨ b <+: a := by
  induction a generalizing b with
  | nil => exact .inl List.nil_prefix
  | cons first a ih =>
      cases b with
      | nil => exact .inr List.nil_prefix
      | cons first' b =>
          obtain rfl := Option.some.inj hhead
          obtain ⟨hfirst, ha⟩ := List.isChain_cons.mp ha
          obtain ⟨hfirst', hb⟩ := List.isChain_cons.mp hb
          simp only [List.cons_prefix_cons, true_and]
          cases a with
          | nil => exact .inl List.nil_prefix
          | cons second a =>
              cases b with
              | nil => exact .inr List.nil_prefix
              | cons second' b =>
                  have hsame := (hfirst second rfl).unique (hfirst' second' rfl)
                  exact ih ha hb (congrArg some hsame)

private theorem IsBaseWalk.eq_of_begins {longer : List SessionType}
    (h : IsBaseWalk scope type chain)
    (hlonger : IsBaseWalk scope type longer) (hbegins : chain <+: longer) : chain = longer := by
  obtain ⟨rest, rfl⟩ := hbegins
  cases rest with
  | nil => exact (List.append_nil chain).symm
  | cons next rest =>
      obtain ⟨-, -, hnext⟩ := List.isChain_append.mp hlonger.linked
      cases hlast : chain.getLast? with
      | none =>
          obtain rfl := List.getLast?_eq_none_iff.mp hlast
          exact absurd (h.starts.trans hlonger.starts.symm) (by simp)
      | some last =>
          have hbase : scope.HasBase last next := hnext last hlast next rfl
          rcases h.stops last hlast with hlength | hnone | ⟨base, hlink, hmem⟩
          · have hbounded := hlonger.bounded
            rw [List.length_append, List.length_cons] at hbounded
            omega
          · exact absurd hbase hnone.not_hasBase
          · have hdistinct := hlonger.distinct
            rw [List.map_append, List.map_cons] at hdistinct
            rw [hlink.unique hbase] at hmem
            exact absurd rfl ((List.nodup_append.mp hdistinct).2.2 _ hmem _ List.mem_cons_self)

theorem IsBaseWalk.unique {other : List SessionType} (h : IsBaseWalk scope type chain)
    (hother : IsBaseWalk scope type other) : chain = other := by
  rcases begins_or_begins h.linked hother.linked (h.starts.trans hother.starts.symm) with
    hbegins | hbegins
  · exact h.eq_of_begins hother hbegins
  · exact (hother.eq_of_begins h hbegins).symm

/-! ### The walk without a limit -/

/-- The handles that a walk from a type may come to and that are not in `visited`. -/
def Scope.unvisited (scope : Scope) (visited : List Handle) (type : SessionType) : Finset Handle :=
  ((type :: scope.session.types).map SessionType.handle).toFinset \ visited.toFinset

private theorem mem_unvisited {handle : Handle} : handle ∈ scope.unvisited visited type ↔
    (∃ other ∈ type :: scope.session.types, other.handle = handle) ∧ handle ∉ visited := by
  rw [Scope.unvisited, Finset.mem_sdiff, List.mem_toFinset, List.mem_toFinset, List.mem_map]

/-- Going on to the base type leaves fewer handles to come to. -/
theorem unvisited_card_lt (hnew : type.handle ∉ visited) (hbase : scope.base? type = some base) :
    (scope.unvisited (type.handle :: visited) base).card < (scope.unvisited visited type).card := by
  have hmem : base ∈ scope.session.types := (base?_eq_some_iff.mp hbase).mem_types
  refine Finset.card_lt_card (Finset.ssubset_iff_of_subset ?_ |>.mpr ⟨type.handle, ?_, ?_⟩)
  · intro handle hhandle
    rw [mem_unvisited] at hhandle ⊢
    obtain ⟨⟨other, hother, rfl⟩, hfresh⟩ := hhandle
    refine ⟨⟨other, .tail _ ?_, rfl⟩, fun h => hfresh (.tail _ h)⟩
    rcases List.mem_cons.mp hother with rfl | hother
    · exact hmem
    · exact hother
  · exact mem_unvisited.mpr ⟨⟨type, .head _, rfl⟩, hnew⟩
  · exact fun h => (mem_unvisited.mp h).2 (.head _)

/-- A type and those that it is derived from, up to one that is in `visited`. -/
def Scope.walkFrom (scope : Scope) (visited : List Handle) (type : SessionType) :
    List SessionType :=
  if _hvisited : type.handle ∈ visited then []
  else
    type ::
      match _hbase : scope.base? type with
      | none => []
      | some base => scope.walkFrom (type.handle :: visited) base
termination_by (scope.unvisited visited type).card
decreasing_by exact unvisited_card_lt _hvisited _hbase

private theorem walkFrom_of_mem (h : type.handle ∈ visited) : scope.walkFrom visited type = [] := by
  rw [Scope.walkFrom, dif_pos h]

private theorem walkFrom_of_none (hnew : type.handle ∉ visited) (hbase : scope.base? type = none) :
    scope.walkFrom visited type = [type] := by
  rw [Scope.walkFrom, dif_neg hnew]
  split
  · rfl
  · next h => exact absurd (hbase.symm.trans h) (by simp)

private theorem walkFrom_of_some (hnew : type.handle ∉ visited)
    (hbase : scope.base? type = some base) :
    scope.walkFrom visited type = type :: scope.walkFrom (type.handle :: visited) base := by
  rw [Scope.walkFrom, dif_neg hnew]
  split
  · next h => exact absurd (hbase.symm.trans h) (by simp)
  · next h => rw [Option.some.inj (hbase.symm.trans h)]

private theorem length_walkFrom_le (scope : Scope) (visited : List Handle) (type : SessionType) :
    (scope.walkFrom visited type).length ≤ (scope.unvisited visited type).card := by
  by_cases hvisited : type.handle ∈ visited
  · rw [walkFrom_of_mem hvisited]
    exact Nat.zero_le _
  cases hbase : scope.base? type with
  | none =>
      rw [walkFrom_of_none hvisited hbase]
      exact Finset.card_pos.mpr ⟨type.handle, mem_unvisited.mpr ⟨⟨type, .head _, rfl⟩, hvisited⟩⟩
  | some base =>
      have hrest := length_walkFrom_le scope (type.handle :: visited) base
      have hfewer := unvisited_card_lt hvisited hbase
      rw [walkFrom_of_some hvisited hbase, List.length_cons]
      omega
termination_by (scope.unvisited visited type).card
decreasing_by exact unvisited_card_lt hvisited hbase

/-- Whatever the settings are, their limit only cuts the walk. -/
theorem chainFrom_eq_take (scope : Scope) (settings : Settings) (room : Nat)
    (visited : List Handle) (type : SessionType) :
    ({ scope with settings } : Scope).chainFrom room visited type =
      (scope.walkFrom visited type).take room := by
  refine chainFrom_induction { scope with settings }
    (motive := fun room visited type chain => chain = (scope.walkFrom visited type).take room)
      ?_ ?_ ?_ room visited type
  · rintro room visited type (rfl | hvisited)
    · rw [List.take_zero]
    · rw [walkFrom_of_mem hvisited, List.take_nil]
  · intro room visited type hnew hbase
    have hnone : scope.base? type = none := hbase
    rw [walkFrom_of_none hnew hnone, List.take_succ_cons, List.take_nil]
  · intro room visited type base hnew hbase ih
    have hsome : scope.base? type = some base := hbase
    rw [walkFrom_of_some hnew hsome, List.take_succ_cons, ih]

/-- The chain of a type is the one walk from type to base type that has each handle once, is not
longer than it may be, and stops only there, at a type without a base type in the session, or
before a handle that it has already. Without a limit the walk is no longer than the handles are
many, and every limit cuts it. Where handles tell the types apart, a handle that comes again is that
of a type that comes again. -/
theorem baseChain_finite_walk (scope : Scope) (type : SessionType) :
    (∀ chain, IsBaseWalk scope type chain ↔ chain = scope.baseChain type) ∧
      (∀ settings : Settings, ({ scope with settings } : Scope).baseChain type =
        (scope.walkFrom [] type).take settings.maxBaseDepth) ∧
      (scope.walkFrom [] type).length ≤
        ((type :: scope.session.types).map SessionType.handle).toFinset.card ∧
      (scope.HandlesDiffer → type ∈ scope.session.types → ∀ base ∈ scope.session.types,
        base.handle ∈ (scope.baseChain type).map SessionType.handle →
          base ∈ scope.baseChain type) := by
  refine ⟨fun chain => ⟨fun h => h.unique (isBaseWalk_baseChain scope type), ?_⟩, ?_, ?_, ?_⟩
  · rintro rfl
    exact isBaseWalk_baseChain scope type
  · exact fun settings => chainFrom_eq_take scope settings settings.maxBaseDepth [] type
  · have hlength := length_walkFrom_le scope [] type
    rwa [Scope.unvisited, List.toFinset_nil, Finset.sdiff_empty] at hlength
  · intro hhandles htype base hbase hmem
    obtain ⟨other, hother, hhandle⟩ := List.mem_map.mp hmem
    have hothertype := mem_types_of_mem_chainFrom scope htype hother
    exact hhandles other hothertype base hbase hhandle ▸ hother

/-- A type that is derived from an instance of a generic type, which is derived from it. -/
def circularLibrary : Library :=
  { types :=
      [{ name := "A", baseType := some "B<A>" }, { name := "B\x601", baseType := some "A" }] }

def circularScope : Scope := ⟨{}, .withTarget none [circularLibrary] {}⟩

def circularType : SessionType :=
  SessionLibrary.ofDecl "" ⟨0, 0⟩ { name := "A", baseType := some "B<A>" }

/-- The walk follows the instance to its definition and stops before it comes back. -/
theorem baseChain_finite_walk_circular :
    circularScope.HandlesDiffer ∧ circularType ∈ circularScope.session.types ∧
      (circularScope.baseChain circularType).map SessionType.fullName = ["A", "B\x601"] ∧
      circularType ∈ circularScope.baseChain circularType := by
  have hhandles : circularScope.HandlesDiffer := fun _ ha _ hb => Session.eq_of_handle_eq ha hb
  have hmem : circularType ∈ circularScope.session.types := by decide +kernel
  exact ⟨hhandles, hmem, by decide +kernel,
    (baseChain_finite_walk circularScope circularType).2.2.2 hhandles hmem circularType hmem
      (by decide +kernel)⟩

end XamlAssist.Conversion
