import XamlAssist.Conversion.Resolution
import XamlAssist.Proofs.GenericNesting

/-!
# How the levels of a reference are resolved

A reference is resolved from the outside in. At each level one of six rules applies, and one of them
is for an instance past the limit. Main statements: `resolution_iff`, the rules give what resolving
gives, and `Resolution.limit_notMem`, a reference that does not nest too deep never comes to the
rule for the limit.
-/

namespace XamlAssist.Conversion

open TypeGraph GenericName

/-- A reference without the blanks around it. -/
def trimmed (reference : String) : String := String.ofList (Text.trim reference.toList)

theorem nesting_trimmed (reference : String) : nesting (trimmed reference) = nesting reference := by
  rw [nesting, trimmed, String.toList_ofList, nestingFrom_trim, nesting]

/-! ### Rules -/

namespace Scope

/-- The levels of arguments that the limit leaves for a reference at the given depth. -/
def levelsLeft (scope : Scope) (depth : Nat) : Nat := scope.settings.maxGenericDepth - depth

/-- Whether an instance at the given depth is judged complete: it does not nest deeper than the
limit. -/
def isComplete (scope : Scope) (depth : Nat) (name : String) : Bool :=
  decide (depth + nesting name ≤ scope.settings.maxGenericDepth)

/-- The key under which an instance at the given depth is remembered. -/
def instanceKey (scope : Scope) (depth : Nat) (name : String) : InstanceKey :=
  ⟨name, if scope.isComplete depth name then none else some (scope.levelsLeft depth)⟩

/-- What an instance at the given depth is known to stand for. -/
def known? (scope : Scope) (depth : Nat) (name : String) (builder : Builder) :
    Option (Option TypeId) :=
  builder.instance? (scope.isComplete depth name) (scope.instanceKey depth name)

end Scope

/-- The ways to resolve one level of a reference. -/
inductive Branch
  /-- The reference is blank. -/
  | blank
  /-- The reference is the name of a type. -/
  | plain
  /-- The instance is known. -/
  | known
  /-- The limit is reached: the instance stands for its generic type, whatever its arguments. -/
  | limit
  /-- The instance becomes a type of its own, for which its argument is resolved. -/
  | synthesis
  /-- The instance is none of those that become types, and stands for its generic type. -/
  | definition
  deriving DecidableEq, Repr

/-- A reference at a depth is an instance that is not known. -/
structure IsNewInstance (scope : Scope) (depth : Nat) (reference : String) (builder : Builder)
    (generic : GenericName) : Prop where
  name : ofString? (trimmed reference) = some generic
  unknown : scope.known? depth (trimmed reference) builder = none

/-- Resolving a reference at a depth: the branches that its levels take, from the outside in, and
what comes out. -/
inductive Resolution (scope : Scope) :
    Nat → String → Builder → List Branch → Option TypeId × Builder → Prop
  | blank {depth : Nat} {reference : String} {builder : Builder} :
      trimmed reference = "" → Resolution scope depth reference builder [.blank] (none, builder)
  | plain {depth : Nat} {reference : String} {builder : Builder} :
      trimmed reference ≠ "" → ofString? (trimmed reference) = none →
      Resolution scope depth reference builder [.plain]
        (builder.resolvePlain scope (trimmed reference))
  | known {depth : Nat} {reference : String} {builder : Builder} {generic : GenericName}
      {value : Option TypeId} :
      ofString? (trimmed reference) = some generic →
      scope.known? depth (trimmed reference) builder = some value →
      Resolution scope depth reference builder [.known] (value, builder)
  | limit {depth : Nat} {reference : String} {builder : Builder} {generic : GenericName} :
      IsNewInstance scope depth reference builder generic →
      scope.settings.maxGenericDepth ≤ depth →
      Resolution scope depth reference builder [.limit]
        (Builder.remember (scope.instanceKey depth (trimmed reference))
          (builder.resolvePlain scope generic.definition))
  | synthesis {depth : Nat} {reference : String} {builder : Builder} {generic : GenericName}
      {branches : List Branch} {argument : Option TypeId × Builder} :
      IsNewInstance scope depth reference builder generic →
      depth < scope.settings.maxGenericDepth →
      Builder.isSynthesized generic.definition = true →
      Resolution scope (depth + 1) (generic.arguments.headD "")
        (builder.resolvePlain scope generic.definition).2 branches argument →
      Resolution scope depth reference builder (.synthesis :: branches)
        (Builder.remember (scope.instanceKey depth (trimmed reference))
          (argument.2.addInstance (scope.isComplete depth (trimmed reference))
            (Builder.instanceNode argument.2.graph (trimmed reference) generic
              (builder.resolvePlain scope generic.definition).1 argument.1)))
  | definition {depth : Nat} {reference : String} {builder : Builder} {generic : GenericName} :
      IsNewInstance scope depth reference builder generic →
      depth < scope.settings.maxGenericDepth →
      Builder.isSynthesized generic.definition = false →
      Resolution scope depth reference builder [.definition]
        (Builder.remember (scope.instanceKey depth (trimmed reference))
          (builder.resolvePlain scope generic.definition))

variable {scope : Scope} {depth room : Nat} {reference : String} {builder : Builder}
  {branches : List Branch} {resolved : Option TypeId × Builder} {generic : GenericName}

theorem isComplete_trimmed_iff : scope.isComplete depth (trimmed reference) = true ↔
    depth + nesting reference ≤ scope.settings.maxGenericDepth := by
  rw [Scope.isComplete, nesting_trimmed, decide_eq_true_eq]

private theorem ofString?_empty : ofString? "" = none := rfl

private theorem trimmed_ne_empty (h : ofString? (trimmed reference) = some generic) :
    trimmed reference ≠ "" := by
  intro hempty
  rw [hempty, ofString?_empty] at h
  exact absurd h (by simp)

theorem IsNewInstance.nesting_argument_lt
    (h : IsNewInstance scope depth reference builder generic) :
    nesting (generic.arguments.headD "") < nesting reference := by
  rw [← nesting_trimmed reference]
  exact nesting_lt_of_mem_arguments h.name (headD_mem_arguments h.name)

/-- One of the rules applies to every reference. -/
theorem exists_resolution (scope : Scope) (depth : Nat) (reference : String) (builder : Builder) :
    ∃ branches resolved, Resolution scope depth reference builder branches resolved := by
  induction hleft : scope.levelsLeft depth using Nat.strongRecOn
    generalizing depth reference builder with
  | ind left ih =>
      by_cases hblank : trimmed reference = ""
      · exact ⟨_, _, .blank hblank⟩
      cases hname : ofString? (trimmed reference) with
      | none => exact ⟨_, _, .plain hblank hname⟩
      | some generic =>
          cases hknown : scope.known? depth (trimmed reference) builder with
          | some value => exact ⟨_, _, .known hname hknown⟩
          | none =>
              have hnew : IsNewInstance scope depth reference builder generic := ⟨hname, hknown⟩
              rcases Nat.lt_or_ge depth scope.settings.maxGenericDepth with hlt | hlimit
              · cases hsynthesized : Builder.isSynthesized generic.definition with
                | false => exact ⟨_, _, .definition hnew hlt hsynthesized⟩
                | true =>
                    have hfewer : scope.levelsLeft (depth + 1) < left := by
                      rw [← hleft, Scope.levelsLeft, Scope.levelsLeft]
                      omega
                    obtain ⟨branches, argument, hargument⟩ := ih _ hfewer (depth + 1)
                      (generic.arguments.headD "")
                      (builder.resolvePlain scope generic.definition).2 rfl
                    exact ⟨_, _, .synthesis hnew hlt hsynthesized hargument⟩
              · exact ⟨_, _, .limit hnew hlimit⟩

/-! ### The limit -/

theorem Resolution.limit_notMem (h : Resolution scope depth reference builder branches resolved)
    (hdepth : depth + nesting reference ≤ scope.settings.maxGenericDepth) :
    Branch.limit ∉ branches := by
  induction h with
  | blank | plain | known | definition => simp
  | limit hnew hlimit =>
      have hlt := hnew.nesting_argument_lt
      omega
  | synthesis hnew hlt _ _ ih =>
      have hless := hnew.nesting_argument_lt
      have hnext := ih (by omega)
      simpa using hnext

/-! ### Levels -/

/-- With `room` levels a reference at the given depth is resolved as far as the limit lets it:
they are the levels that are left, or neither they nor the limit cut anything off. -/
def Scope.Allows (scope : Scope) (depth : Nat) (reference : String) (room : Nat) : Prop :=
  room = scope.levelsLeft depth ∨
    (depth + nesting reference ≤ scope.settings.maxGenericDepth ∧ nesting reference ≤ room)

private theorem Scope.Allows.isComplete_eq (h : scope.Allows depth reference room)
    (hname : ofString? (trimmed reference) = some generic) :
    decide (nesting (trimmed reference) ≤ room) =
      scope.isComplete depth (trimmed reference) := by
  have hpos := nesting_lt_of_mem_arguments hname (headD_mem_arguments hname)
  rw [Scope.isComplete, decide_eq_decide]
  rw [Scope.Allows, Scope.levelsLeft, ← nesting_trimmed reference] at h
  omega

private theorem Scope.Allows.instanceKey_eq (h : scope.Allows depth reference room) :
    InstanceKey.mk (trimmed reference)
        (if scope.isComplete depth (trimmed reference) then none else some room) =
      scope.instanceKey depth (trimmed reference) := by
  rw [Scope.instanceKey]
  rcases h with rfl | ⟨hdepth, -⟩
  · rfl
  · rw [isComplete_trimmed_iff.mpr hdepth, if_pos rfl, if_pos rfl]

theorem Scope.Allows.argument {left : Nat} (h : scope.Allows depth reference (left + 1))
    (hnew : IsNewInstance scope depth reference builder generic) :
    scope.Allows (depth + 1) (generic.arguments.headD "") left := by
  have hlt := hnew.nesting_argument_lt
  rw [Scope.Allows, Scope.levelsLeft] at h ⊢
  omega

private theorem Scope.Allows.pos_iff (h : scope.Allows depth reference room)
    (hnew : IsNewInstance scope depth reference builder generic) :
    0 < room ↔ depth < scope.settings.maxGenericDepth := by
  have hlt := hnew.nesting_argument_lt
  rw [Scope.Allows, Scope.levelsLeft] at h
  omega

section Evaluation

variable {resolveArgument : Option (String → Builder → Option TypeId × Builder)}

private theorem resolveReference_of_blank (h : trimmed reference = "") :
    builder.resolveReference scope room resolveArgument reference = (none, builder) := by
  rw [trimmed] at h
  simp [Builder.resolveReference, h]

private theorem resolveReference_of_plain (hne : trimmed reference ≠ "")
    (hplain : ofString? (trimmed reference) = none) :
    builder.resolveReference scope room resolveArgument reference =
      builder.resolvePlain scope (trimmed reference) := by
  rw [trimmed] at hne hplain
  simp [Builder.resolveReference, hne, hplain, trimmed]

private theorem resolveReference_of_instance (h : ofString? (trimmed reference) = some generic) :
    builder.resolveReference scope room resolveArgument reference =
      builder.resolveInstance scope room resolveArgument (trimmed reference) generic := by
  have hne := trimmed_ne_empty h
  rw [trimmed] at h hne
  simp [Builder.resolveReference, h, hne, trimmed]

private theorem resolveInstance_of_known (hroom : scope.Allows depth reference room)
    (hname : ofString? (trimmed reference) = some generic) {value : Option TypeId}
    (hknown : scope.known? depth (trimmed reference) builder = some value) :
    builder.resolveInstance scope room resolveArgument (trimmed reference) generic =
      (value, builder) := by
  rw [Scope.known?] at hknown
  simp only [Builder.resolveInstance, hroom.isComplete_eq hname, hroom.instanceKey_eq, hknown]

private theorem resolveInstance_of_definition (hroom : scope.Allows depth reference room)
    (hnew : IsNewInstance scope depth reference builder generic)
    (h : resolveArgument = none ∨ Builder.isSynthesized generic.definition = false) :
    builder.resolveInstance scope room resolveArgument (trimmed reference) generic =
      Builder.remember (scope.instanceKey depth (trimmed reference))
        (builder.resolvePlain scope generic.definition) := by
  have hunknown := hnew.unknown
  rw [Scope.known?] at hunknown
  simp only [Builder.resolveInstance, hroom.isComplete_eq hnew.name, hroom.instanceKey_eq,
    hunknown]
  rcases h with rfl | hplain
  · rfl
  · rw [hplain]
    cases resolveArgument <;> rfl

private theorem resolveInstance_of_synthesized (hroom : scope.Allows depth reference room)
    (hnew : IsNewInstance scope depth reference builder generic)
    (hsynthesized : Builder.isSynthesized generic.definition = true)
    (resolve : String → Builder → Option TypeId × Builder) :
    let definition := builder.resolvePlain scope generic.definition
    let argument := resolve (generic.arguments.headD "") definition.2
    builder.resolveInstance scope room (some resolve) (trimmed reference) generic =
      Builder.remember (scope.instanceKey depth (trimmed reference))
        (argument.2.addInstance (scope.isComplete depth (trimmed reference))
          (Builder.instanceNode argument.2.graph (trimmed reference) generic definition.1
            argument.1)) := by
  intro definition argument
  have hunknown := hnew.unknown
  rw [Scope.known?] at hunknown
  simp only [Builder.resolveInstance, hroom.isComplete_eq hnew.name, hroom.instanceKey_eq,
    hunknown, hsynthesized]
  rfl

end Evaluation

/-- What the rules give is what resolving gives, with any number of levels that the limit allows. -/
theorem Resolution.eq_resolveWithin
    (h : Resolution scope depth reference builder branches resolved)
    (hroom : scope.Allows depth reference room) :
    resolved = builder.resolveWithin scope room reference := by
  induction h generalizing room with
  | blank hblank => cases room <;> rw [Builder.resolveWithin, resolveReference_of_blank hblank]
  | plain hne hplain =>
      cases room <;> rw [Builder.resolveWithin, resolveReference_of_plain hne hplain]
  | known hname hknown =>
      cases room <;> rw [Builder.resolveWithin, resolveReference_of_instance hname,
        resolveInstance_of_known hroom hname hknown]
  | limit hnew hlimit =>
      obtain rfl : room = 0 := by
        have hpos := hroom.pos_iff hnew
        omega
      rw [Builder.resolveWithin, resolveReference_of_instance hnew.name,
        resolveInstance_of_definition hroom hnew (.inl rfl)]
  | synthesis hnew hlt hsynthesized _ ih =>
      obtain ⟨left, rfl⟩ := Nat.exists_eq_add_one_of_ne_zero ((hroom.pos_iff hnew).mpr hlt).ne'
      rw [ih (hroom.argument hnew), Builder.resolveWithin, resolveReference_of_instance hnew.name,
        resolveInstance_of_synthesized hroom hnew hsynthesized]
  | definition hnew hlt hplain =>
      obtain ⟨left, rfl⟩ := Nat.exists_eq_add_one_of_ne_zero ((hroom.pos_iff hnew).mpr hlt).ne'
      rw [Builder.resolveWithin, resolveReference_of_instance hnew.name,
        resolveInstance_of_definition hroom hnew (.inr hplain)]

/-- The rules describe resolving. -/
theorem resolution_iff :
    (∃ branches, Resolution scope depth reference builder branches resolved) ↔
      resolved = builder.resolveWithin scope (scope.levelsLeft depth) reference := by
  constructor
  · rintro ⟨branches, h⟩
    exact h.eq_resolveWithin (.inl rfl)
  · rintro rfl
    obtain ⟨branches, other, h⟩ := exists_resolution scope depth reference builder
    rw [← h.eq_resolveWithin (.inl rfl)]
    exact ⟨branches, h⟩

end XamlAssist.Conversion
