import XamlAssist.Proofs.Selector.Sequence
import XamlAssist.Selector.Run

/-!
# Taking parts of a selector's text

What the operations of a reading take of the text, and what they keep: the open functions, and that
no fault has been found.
-/

namespace XamlAssist.Selector

open Text

namespace Reading

variable {r next : Reading} {span : Span}

@[simp] theorem bump_openFunctions (r : Reading) : r.bump.openFunctions = r.openFunctions := by
  unfold bump
  split <;> rfl

@[simp] theorem note_openFunctions (r : Reading) (change : Components → Components) :
    (r.note change).openFunctions = r.openFunctions := rfl

@[simp] theorem startSegment_openFunctions (r : Reading) :
    r.startSegment.openFunctions = r.openFunctions := rfl

@[simp] theorem skipBlanks_openFunctions (r : Reading) :
    r.skipBlanks.openFunctions = r.openFunctions := rfl

@[simp] theorem skipBlanks_rest (r : Reading) : r.skipBlanks.rest = r.rest.dropWhile isBlank := rfl

@[simp] theorem note_peek (r : Reading) (change : Components → Components) :
    (r.note change).peek = r.peek := rfl

theorem bump_rest_of_cons {r : Reading} {c : Char} {t : List Char} (h : r.rest = c :: t) :
    r.bump.rest = t := by
  simp only [bump, h]

@[simp] theorem note_bump_rest (r : Reading) (change : Components → Components) :
    (r.note change).bump.rest = r.bump.rest := by
  cases hrest : r.rest with
  | nil => simp only [bump, note_rest, hrest]
  | cons c t =>
      rw [bump_rest_of_cons hrest]
      exact bump_rest_of_cons hrest

theorem starts_rest_iff (r : Reading) (c : Char) (Q : List Char → Prop) :
    Starts c Q r.rest ↔ r.peek = some c ∧ Q r.bump.rest := by
  cases hrest : r.rest with
  | nil => simp [peek, hrest]
  | cons d t =>
      rw [starts_cons, bump_rest_of_cons hrest, peek, hrest, List.head?_cons, Option.some_inj]

/-! ### Runs and names -/

theorem takeRun_of_head {p : Char → Bool} (h : r.rest.head?.any p = true) :
    ∃ span next, r.takeRun p = some (span, next) ∧ next.rest = r.rest.dropWhile p ∧
      next.openFunctions = r.openFunctions := by
  rw [takeRun, peek, if_pos h]
  exact ⟨_, _, rfl, rfl, rfl⟩

theorem takeRun_of_not_head {p : Char → Bool} (h : ¬ r.rest.head?.any p = true) :
    r.takeRun p = none := by
  rw [takeRun, peek, if_neg h]

theorem takeThrough_of_starts {c : Char} {Q : List Char → Prop}
    (h : Starts c Q (r.rest.dropWhile (· ≠ c))) :
    ∃ span next, r.takeThrough c = some (span, r.rest.takeWhile (· ≠ c), next) ∧ Q next.rest ∧
      next.openFunctions = r.openFunctions := by
  obtain ⟨t, ht, heq⟩ := h
  simp only [takeThrough, heq]
  exact ⟨_, _, rfl, ht, rfl⟩

theorem starts_of_takeThrough {c : Char} {inner : List Char}
    (h : r.takeThrough c = some (span, inner, next)) :
    inner = r.rest.takeWhile (· ≠ c) ∧ r.rest.dropWhile (· ≠ c) = c :: next.rest ∧
      next.openFunctions = r.openFunctions := by
  unfold takeThrough at h
  split at h
  · exact absurd h (by simp)
  · next d t heq =>
      obtain ⟨-, rfl, rfl⟩ := by simpa only [Option.some.injEq, Prod.mk.injEq] using h
      have hd : d = c := by
        have hnot := List.head?_dropWhile_not (· ≠ c) r.rest
        rw [heq] at hnot
        simpa using hnot
      rw [heq, hd]
      exact ⟨rfl, rfl, rfl⟩

section Names

variable [IdentifierTables]

theorem takeIdentifier_of_head [LawfulIdentifierTables]
    (h : r.rest.head?.any isIdentifierStart = true) :
    ∃ span next, r.takeIdentifier = some (span, next) ∧
      next.rest = r.rest.dropWhile isIdentifierContinue ∧
      next.openFunctions = r.openFunctions := by
  have hcontinue : r.rest.head?.any isIdentifierContinue = true := by
    cases hc : r.rest.head? with
    | none => rw [hc] at h; exact absurd h (by simp)
    | some c => rw [hc] at h; exact isIdentifierContinue_of_start h
  rw [takeIdentifier, peek, if_pos h]
  exact takeRun_of_head hcontinue

theorem takeIdentifier_of_not_head
    (h : ¬ r.rest.head?.any isIdentifierStart = true) : r.takeIdentifier = none := by
  rw [takeIdentifier, peek, if_neg h]

end Names

/-! ### What is kept -/

private theorem takeRun_openFunctions {p : Char → Bool} (h : r.takeRun p = some (span, next)) :
    next.openFunctions = r.openFunctions := by
  unfold takeRun at h
  split at h
  · obtain ⟨-, rfl⟩ := Prod.mk.inj (Option.some.inj h)
    rfl
  · simp at h

@[simp] theorem bump_failed (r : Reading) : r.bump.failed = r.failed := by
  unfold bump
  split <;> rfl

@[simp] theorem note_failed (r : Reading) (change : Components → Components) :
    (r.note change).failed = r.failed := rfl

private theorem takeRun_failed {p : Char → Bool} (h : r.takeRun p = some (span, next)) :
    next.failed = r.failed := by
  grind [takeRun, skipWhile]

private theorem takeThrough_failed {c : Char} {inner : List Char}
    (h : r.takeThrough c = some (span, inner, next)) : next.failed = r.failed := by
  grind [takeThrough]

private theorem takeText_failed {text : List Char} (h : r.takeText text = some next) :
    next.failed = r.failed := by
  grind [takeText]

private theorem readEquals_failed (r : Reading) : r.readEquals.1.failed = r.failed := by
  grind [readEquals, fault, goOn, bump_failed, skipBlanks, skipWhile]

variable [IdentifierTables]

private theorem takeIdentifier_openFunctions
    (h : r.takeIdentifier = some (span, next)) : next.openFunctions = r.openFunctions := by
  unfold takeIdentifier at h
  split at h
  · exact takeRun_openFunctions h
  · simp at h

theorem readAttachedType_openFunctions (r : Reading) :
    r.readAttachedType.1.openFunctions = r.openFunctions := by
  rw [readAttachedType]
  grind [→ takeIdentifier_openFunctions, bump_openFunctions, note_openFunctions]

private theorem takeIdentifier_failed (h : r.takeIdentifier = some (span, next)) :
    next.failed = r.failed := by
  grind [takeIdentifier, → takeRun_failed]

private theorem readAttachedType_failed (r : Reading) : r.readAttachedType.1.failed = r.failed := by
  grind [readAttachedType, → takeIdentifier_failed, bump_failed, note_failed]

/-- A step alone notes no fault; the run does. -/
theorem step_failed (r : Reading) (statement : Statement) :
    (r.step statement).1.failed = r.failed := by
  cases statement with
  | start => grind [step, readStart, fault, goOn, bump_failed, skipBlanks, skipWhile, startSegment]
  | middle =>
      grind [step, readMiddle, fault, goOn, bump_failed, startSegment, expectSegment, closeFunction]
  | pseudo => grind [step, readPseudo, fault, goOn, → takeRun_failed, bump_failed, note_failed]
  | styleClass => grind [step, readStyleClass, fault, goOn, → takeRun_failed, note_failed]
  | elementName => grind [step, readElementName, fault, goOn, → takeIdentifier_failed, note_failed]
  | afterName => grind [step, readAfterName, goOn, bump_failed, startSegment]
  | combinator =>
      grind [step, readCombinator, goOn, bump_failed, skipBlanks, skipWhile, expectSegment]
  | typeName =>
      grind [step, readTypeName, fault, goOn, → takeIdentifier_failed, note_failed, bump_failed,
        startSegment]
  | predicate =>
      grind [step, readPredicate, fault, goOn, → takeIdentifier_failed, note_failed, bump_failed,
        skipBlanks, skipWhile, readEquals_failed]
  | attachedProperty inParentheses =>
      grind [step, readAttachedProperty, fault, → takeIdentifier_failed, note_failed, bump_failed,
        readEquals_failed, readAttachedType_failed]
  | template =>
      grind [step, readTemplate, fault, goOn, → takeText_failed, expectSegment, startSegment]
  | value => grind [step, readValue, fault, goOn, → takeThrough_failed, note_failed]
  | function f => cases f <;> rfl
  | arguments => grind [step, readArguments, fault, goOn, → takeThrough_failed, note_failed]
  | done => rfl

end Reading

end XamlAssist.Selector
