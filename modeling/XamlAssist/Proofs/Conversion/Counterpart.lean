import XamlAssist.Proofs.Conversion.Mentions
import XamlAssist.Proofs.Conversion.Run

/-!
# Sessions with the same graph

Main statement: `Counterpart.convert_eq`, the graph of a session does not change if each type is
exchanged for one that is described alike and gives the same members.
-/

namespace XamlAssist.Conversion

open TypeGraph Library

/-- Every type of a session has a counterpart in another session, and the two sessions are alike in
all else that a conversion looks at. -/
structure Counterpart (scope other : Scope) (change : SessionType → SessionType) : Prop where
  settings : other.settings = scope.settings
  described : ∀ type ∈ scope.session.types, describe (change type) = describe type
  base? : ∀ type ∈ scope.session.types, other.base? (change type) = (scope.base? type).map change
  members : ∀ type ∈ scope.session.types, GathersAlike scope other type (change type)
  registered : register other = ((register scope).1.map (Prod.map id change), (register scope).2)
  statics : ∀ name ∈ ownNames, (other.type? name).map (staticNames ·.decl) =
    (scope.type? name).map (staticNames ·.decl)
  embedded : addEmbedded other.session = addEmbedded scope.session
  addresses : other.session.libraries.flatMap (addresses other) =
    scope.session.libraries.flatMap (addresses scope)

variable {scope other : Scope} {change : SessionType → SessionType}

private theorem Counterpart.chainFrom_eq (h : Counterpart scope other change) (room : Nat)
    (visited : List Handle) {type : SessionType} (htype : type ∈ scope.session.types) :
    other.chainFrom room visited (change type) =
      (scope.chainFrom room visited type).map change := by
  induction room generalizing visited type with
  | zero => rfl
  | succ room ih =>
      have hhandle : (change type).handle = type.handle :=
        Option.some.inj (congrArg Node.handle (h.described type htype))
      rw [Scope.chainFrom, Scope.chainFrom, hhandle, h.base? type htype]
      split
      · rfl
      cases hbase : scope.base? type with
      | none => rfl
      | some base =>
          obtain ⟨name, -, hfound⟩ := Option.bind_eq_some_iff.mp hbase
          simp only [Option.map_some, List.map_cons, ih _ (mem_types_of_type? hfound)]

private theorem Counterpart.harvest_eq (h : Counterpart scope other change) (builder : Builder)
    (id : TypeId) {type : SessionType} (htype : type ∈ scope.session.types) :
    harvest other builder (id, change type) = harvest scope builder (id, type) := by
  have hname : (change type).decl.name = type.decl.name :=
    congrArg Node.name (h.described type htype)
  have hfullName : (change type).fullName = type.fullName :=
    congrArg Node.fullName (h.described type htype)
  have hchain : other.baseChain (change type) = (scope.baseChain type).map change := by
    rw [Scope.baseChain, h.settings]
    exact h.chainFrom_eq _ [] htype
  have hgathered : (other.baseChain (change type)).foldl (gatherType other) ({}, builder) =
      (scope.baseChain type).foldl (gatherType scope) ({}, builder) := by
    rw [hchain, List.foldl_map]
    refine List.foldl_ext _ _ _ fun state base hbase => ?_
    exact (h.members base (mem_types_of_mem_chainFrom scope htype hbase)).inherited state
  have hmembers := h.members type htype
  have hshort : @registerShortName Unit _ (change type) id = registerShortName type id := by
    funext builder
    rw [registerShortName, registerShortName, hname, hfullName]
  simp only [harvest, hgathered, hmembers.properties, hmembers.events, hmembers.arguments, hshort]

theorem Counterpart.complete_eq (h : Counterpart scope other change) (offered : List TypeId)
    (builder : Builder) : complete other offered builder = complete scope offered builder := by
  have hstatics {holder : String} (hholder : holder ∈ ownNames) (id : Option TypeId)
      (builder : Builder) :
      addStaticHints other holder id builder = addStaticHints scope holder id builder := by
    have heq := h.statics holder hholder
    unfold addStaticHints
    cases htype : scope.type? holder with
    | none =>
        rw [htype, Option.map_none, Option.map_eq_none_iff] at heq
        rw [heq]
    | some type =>
        rw [htype, Option.map_some, Option.map_eq_some_iff] at heq
        obtain ⟨counterpart, hcounterpart, hnames⟩ := heq
        simp only [hcounterpart, hnames]
  have hbrushes : Known.brushes ∈ ownNames := by simp [ownNames]
  have hcolors : Known.colors ∈ ownNames := by simp [ownNames]
  simp only [complete, addLateHints, addAddressHints, h.embedded, h.addresses, h.settings,
    hstatics hbrushes, hstatics hcolors]

/-- Two sessions whose types are counterparts have the same graph. -/
theorem Counterpart.convert_eq (h : Counterpart scope other change) :
    convert other.settings other.session = convert scope.settings scope.session := by
  have hharvest : ((register scope).1.map (Prod.map id change)).foldl (harvest other)
      (register scope).2 = (register scope).1.foldl (harvest scope) (register scope).2 := by
    rw [List.foldl_map]
    refine List.foldl_ext _ _ _ fun builder pair hpair => ?_
    exact h.harvest_eq builder pair.1 ((registered_register scope).mem_types pair hpair)
  have hids : ((register scope).1.map (Prod.map id change)).map Prod.fst =
      (register scope).1.map Prod.fst := by
    rw [List.map_map]
    rfl
  simp only [convert, construct, h.registered, hharvest, hids, h.complete_eq]

end XamlAssist.Conversion
