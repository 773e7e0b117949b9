import Mathlib.Data.List.Chain
import XamlAssist.Conversion.Scope

/-!
# Chains of base types

Main statement: `isBaseChain_baseChain`, the chain of a type goes on from each type to the one that
it is derived from, for as long as no type comes again and the chain is not too long.
-/

namespace XamlAssist.Conversion

/-- The types that a type is derived from, with the type itself in front. -/
structure IsBaseChain (scope : Scope) (type : SessionType) (chain : List SessionType) : Prop where
  starts : chain.head? = if scope.settings.maxBaseDepth = 0 then none else some type
  linked : chain.IsChain fun derived base => scope.base? derived = some base
  distinct : (chain.map SessionType.handle).Nodup
  bounded : chain.length ≤ scope.settings.maxBaseDepth
  /-- The chain ends only where there is no base type, where the base type is in the chain already,
  or where the chain is as long as it may be. -/
  maximal : ∀ last ∈ chain.getLast?, ∀ base, scope.base? last = some base →
    base.handle ∈ chain.map SessionType.handle ∨ chain.length = scope.settings.maxBaseDepth

variable (scope : Scope)

/-- How a chain is made: it stops, it ends with a type that has no base type, or it goes on. -/
theorem chainFrom_induction {motive : Nat → List Handle → SessionType → List SessionType → Prop}
    (stop : ∀ room visited type, room = 0 ∨ type.handle ∈ visited → motive room visited type [])
    (root : ∀ room visited type, type.handle ∉ visited → scope.base? type = none →
      motive (room + 1) visited type [type])
    (step : ∀ room visited type base, type.handle ∉ visited → scope.base? type = some base →
      motive room (type.handle :: visited) base
        (scope.chainFrom room (type.handle :: visited) base) →
      motive (room + 1) visited type
        (type :: scope.chainFrom room (type.handle :: visited) base))
    (room : Nat) (visited : List Handle) (type : SessionType) :
    motive room visited type (scope.chainFrom room visited type) := by
  induction room generalizing visited type with
  | zero => exact stop 0 visited type (.inl rfl)
  | succ room ih =>
      rw [Scope.chainFrom]
      split
      · next hvisited => exact stop _ visited type (.inr (List.contains_iff_mem.mp hvisited))
      · next hvisited =>
          have hnew : type.handle ∉ visited :=
            fun hmem => hvisited (List.contains_iff_mem.mpr hmem)
          cases hbase : scope.base? type with
          | none => exact root room visited type hnew hbase
          | some base => exact step room visited type base hnew hbase (ih _ base)

private theorem chainFrom_head? {room : Nat} {visited : List Handle} {type first : SessionType}
    (h : (scope.chainFrom room visited type).head? = some first) : first = type := by
  revert h
  refine chainFrom_induction scope
    (motive := fun _ _ type chain => chain.head? = some first → first = type) ?_ ?_ ?_ room visited
      type
  · exact fun _ _ _ _ h => absurd h (by simp)
  · exact fun _ _ _ _ _ h => (Option.some.inj h).symm
  · exact fun _ _ _ _ _ _ _ h => (Option.some.inj h).symm

private theorem eq_zero_or_mem_of_chainFrom_eq_nil {room : Nat} {visited : List Handle}
    {type : SessionType} (h : scope.chainFrom room visited type = []) :
    room = 0 ∨ type.handle ∈ visited := by
  revert h
  refine chainFrom_induction scope
    (motive := fun room visited type chain => chain = [] → room = 0 ∨ type.handle ∈ visited)
      ?_ ?_ ?_ room visited type
  · exact fun _ _ _ h _ => h
  · exact fun _ _ _ _ _ h => absurd h (List.cons_ne_nil _ _)
  · exact fun _ _ _ _ _ _ _ h => absurd h (List.cons_ne_nil _ _)

private theorem chainFrom_length_le (room : Nat) (visited : List Handle) (type : SessionType) :
    (scope.chainFrom room visited type).length ≤ room := by
  refine chainFrom_induction scope (motive := fun room _ _ chain => chain.length ≤ room)
    ?_ ?_ ?_ room visited type
  · exact fun room _ _ _ => Nat.zero_le room
  · exact fun room _ _ _ _ => Nat.succ_le_succ (Nat.zero_le room)
  · exact fun _ _ _ _ _ _ ih => Nat.succ_le_succ ih

private theorem chainFrom_linked (room : Nat) (visited : List Handle) (type : SessionType) :
    (scope.chainFrom room visited type).IsChain fun derived base =>
      scope.base? derived = some base := by
  refine chainFrom_induction scope
    (motive := fun _ _ _ chain => chain.IsChain fun derived base =>
      scope.base? derived = some base) ?_ ?_ ?_ room visited type
  · exact fun _ _ _ _ => .nil
  · exact fun _ _ type _ _ => .singleton type
  · intro room visited type base _ hbase ih
    refine List.isChain_cons.mpr ⟨?_, ih⟩
    intro first hfirst
    rw [chainFrom_head? scope hfirst]
    exact hbase

private theorem chainFrom_distinct (room : Nat) (visited : List Handle) (type : SessionType) :
    ((scope.chainFrom room visited type).map SessionType.handle).Nodup ∧
      ∀ handle ∈ (scope.chainFrom room visited type).map SessionType.handle,
        handle ∉ visited := by
  refine chainFrom_induction scope
    (motive := fun _ visited _ chain => (chain.map SessionType.handle).Nodup ∧
      ∀ handle ∈ chain.map SessionType.handle, handle ∉ visited) ?_ ?_ ?_ room visited type
  · simp
  · intro room visited type hvisited _
    simpa using hvisited
  · intro room visited type base hvisited _ ih
    obtain ⟨hnodup, hfresh⟩ := ih
    rw [List.map_cons]
    refine ⟨List.nodup_cons.mpr ⟨?_, hnodup⟩, ?_⟩
    · exact fun hmem => hfresh _ hmem List.mem_cons_self
    · intro handle hmem
      rcases List.mem_cons.mp hmem with rfl | hmem
      · exact hvisited
      · exact fun h => hfresh handle hmem (List.mem_cons_of_mem _ h)

private theorem chainFrom_maximal (room : Nat) (visited : List Handle) (type : SessionType) :
    ∀ last ∈ (scope.chainFrom room visited type).getLast?, ∀ base, scope.base? last = some base →
      base.handle ∈ visited ∨
        base.handle ∈ (scope.chainFrom room visited type).map SessionType.handle ∨
        (scope.chainFrom room visited type).length = room := by
  refine chainFrom_induction scope
    (motive := fun room visited _ chain => ∀ last ∈ chain.getLast?, ∀ base,
      scope.base? last = some base → base.handle ∈ visited ∨
        base.handle ∈ chain.map SessionType.handle ∨ chain.length = room)
      ?_ ?_ ?_ room visited type
  · exact fun _ _ _ _ _ hlast => absurd hlast (by simp)
  · intro room visited type _ hbase last hlast next hnext
    obtain rfl := Option.some.inj hlast
    exact absurd (hbase.symm.trans hnext) (by simp)
  · intro room visited type base _ hbase ih last hlast next hnext
    have hhere {chain : List SessionType} (hmem : next.handle ∈ type.handle :: visited) :
        next.handle ∈ visited ∨ next.handle ∈ (type :: chain).map SessionType.handle ∨
          (type :: chain).length = room + 1 := by
      rcases List.mem_cons.mp hmem with hsame | hmem
      · exact .inr (.inl (hsame ▸ List.mem_cons_self))
      · exact .inl hmem
    cases hrest : scope.chainFrom room (type.handle :: visited) base with
    | nil =>
        rw [hrest] at hlast
        obtain rfl := Option.some.inj hlast
        obtain rfl := Option.some.inj (hbase.symm.trans hnext)
        rcases eq_zero_or_mem_of_chainFrom_eq_nil scope hrest with rfl | hmem
        · exact .inr (.inr rfl)
        · exact hhere hmem
    | cons second rest =>
        rw [hrest, List.getLast?_cons_cons, ← hrest] at hlast
        have hcases := ih last hlast next hnext
        rw [hrest] at hcases
        rcases hcases with hmem | hmem | hlength
        · exact hhere hmem
        · exact .inr (.inl (List.mem_cons_of_mem _ hmem))
        · exact .inr (.inr (congrArg Nat.succ hlength))

theorem mem_types_of_mem_chainFrom {room : Nat} {visited : List Handle} {type other : SessionType}
    (htype : type ∈ scope.session.types) (h : other ∈ scope.chainFrom room visited type) :
    other ∈ scope.session.types := by
  revert htype h
  refine chainFrom_induction scope
    (motive := fun _ _ type chain => type ∈ scope.session.types → other ∈ chain →
      other ∈ scope.session.types) ?_ ?_ ?_ room visited type
  · exact fun _ _ _ _ _ h => absurd h (by simp)
  · exact fun _ _ _ _ _ htype h => List.mem_singleton.mp h ▸ htype
  · intro room visited type base _ hbase ih htype h
    obtain ⟨name, -, hfound⟩ := Option.bind_eq_some_iff.mp hbase
    rcases List.mem_cons.mp h with rfl | h
    · exact htype
    · exact ih (List.mem_of_find?_eq_some hfound) h

/-- The chain of a type that the conversion looks at is its chain of base types. -/
theorem isBaseChain_baseChain (type : SessionType) :
    IsBaseChain scope type (scope.baseChain type) := by
  refine ⟨?_, chainFrom_linked scope _ [] type, (chainFrom_distinct scope _ [] type).1,
    chainFrom_length_le scope _ [] type, ?_⟩
  · split
    · next hzero => rw [Scope.baseChain, hzero, Scope.chainFrom, List.head?_nil]
    · next hpos =>
        cases hchain : scope.baseChain type with
        | nil =>
            rcases eq_zero_or_mem_of_chainFrom_eq_nil scope hchain with hzero | hmem
            · exact absurd hzero hpos
            · exact absurd hmem (by simp)
        | cons first rest =>
            have hfirst : (scope.baseChain type).head? = some first := by rw [hchain]; rfl
            rw [chainFrom_head? scope hfirst, List.head?_cons]
  · intro last hlast base hbase
    rcases chainFrom_maximal scope _ [] type last hlast base hbase with h | h
    · exact absurd h (by simp)
    · exact h

end XamlAssist.Conversion
