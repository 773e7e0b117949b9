import Mathlib.Data.List.TakeWhile
import XamlAssist.Proofs.Selector.Grammar
import XamlAssist.Proofs.Text.Identifier

/-!
# One part of a text behind another

`Then P Q` holds of the texts that consist of a part in `P` and a rest in `Q`. Where no rest in `Q`
begins with a character that the part could take as well, there is only one way to split, and it is
the one that a scanner finds.
-/

namespace XamlAssist.Selector

open Text

/-- A text in `P` followed by one in `Q`. -/
def Then (P Q : List Char → Prop) (text : List Char) : Prop := ∃ s t, P s ∧ Q t ∧ text = s ++ t

/-- The character `c` followed by a text in `Q`. -/
def Starts (c : Char) (Q : List Char → Prop) (text : List Char) : Prop := ∃ t, Q t ∧ text = c :: t

/-- No text in `Q` begins with a character in the class `p`. -/
def Avoids (p : Char → Bool) (Q : List Char → Prop) : Prop := ∀ c t, Q (c :: t) → p c = false

@[simp] theorem starts_cons (c d : Char) (Q : List Char → Prop) (t : List Char) :
    Starts c Q (d :: t) ↔ d = c ∧ Q t := by
  constructor
  · rintro ⟨u, hu, h⟩
    obtain ⟨rfl, rfl⟩ := List.cons.inj h
    exact ⟨rfl, hu⟩
  · rintro ⟨rfl, ht⟩
    exact ⟨t, ht, rfl⟩

@[simp] theorem starts_nil (c : Char) (Q : List Char → Prop) : ¬ Starts c Q [] := by
  rintro ⟨t, -, h⟩
  exact List.cons_ne_nil c t h.symm

theorem avoids_starts {p : Char → Bool} {c : Char} (hc : p c = false) (Q : List Char → Prop) :
    Avoids p (Starts c Q) := by
  intro d t h
  rw [((starts_cons c d Q t).mp h).1]
  exact hc

/-! ### Runs of characters of a class -/

section Runs

variable {p : Char → Bool}

theorem dropWhile_append_of_avoids {Q : List Char → Prop} (hQ : Avoids p Q) {s t : List Char}
    (hs : ∀ c ∈ s, p c = true) (ht : Q t) : (s ++ t).dropWhile p = t := by
  rw [List.dropWhile_append_of_pos hs]
  cases t with
  | nil => rfl
  | cons c t => rw [List.dropWhile_cons, if_neg (by simp [hQ c t ht])]

theorem takeWhile_append_of_avoids {Q : List Char → Prop} (hQ : Avoids p Q) {s t : List Char}
    (hs : ∀ c ∈ s, p c = true) (ht : Q t) : (s ++ t).takeWhile p = s := by
  rw [List.takeWhile_append_of_pos hs]
  cases t with
  | nil => simp
  | cons c t => rw [List.takeWhile_cons, if_neg (by simp [hQ c t ht]), List.append_nil]

private theorem then_run_iff {Q : List Char → Prop} (hQ : Avoids p Q) (text : List Char) :
    Then (fun s => ∀ c ∈ s, p c = true) Q text ↔ Q (text.dropWhile p) := by
  constructor
  · rintro ⟨s, t, hs, ht, rfl⟩
    rw [dropWhile_append_of_avoids hQ hs ht]
    exact ht
  · intro h
    exact ⟨text.takeWhile p, text.dropWhile p, fun c => List.mem_takeWhile_imp, h,
      List.takeWhile_append_dropWhile.symm⟩

theorem nonempty_run_takeWhile {text : List Char} (h : text.head?.any p = true) :
    text.takeWhile p ≠ [] ∧ ∀ c ∈ text.takeWhile p, p c = true := by
  refine ⟨?_, fun c => List.mem_takeWhile_imp⟩
  cases text with
  | nil => simp at h
  | cons c text =>
      have hc : p c = true := by simpa using h
      rw [List.takeWhile_cons, if_pos hc]
      exact List.cons_ne_nil _ _

theorem then_nonempty_run_iff {Q : List Char → Prop} (hQ : Avoids p Q) (text : List Char) :
    Then (fun s => s ≠ [] ∧ ∀ c ∈ s, p c = true) Q text ↔
      text.head?.any p = true ∧ Q (text.dropWhile p) := by
  constructor
  · rintro ⟨s, t, ⟨hne, hs⟩, ht, rfl⟩
    obtain ⟨c, cs, rfl⟩ := List.exists_cons_of_ne_nil hne
    rw [dropWhile_append_of_avoids hQ hs ht]
    exact ⟨by simpa using hs c List.mem_cons_self, ht⟩
  · rintro ⟨hhead, h⟩
    exact ⟨text.takeWhile p, text.dropWhile p, nonempty_run_takeWhile hhead, h,
      List.takeWhile_append_dropWhile.symm⟩

end Runs

theorem then_blanks_iff {Q : List Char → Prop} (hQ : Avoids isBlank Q) (text : List Char) :
    Then IsBlankRun Q text ↔ Q (text.dropWhile isBlank) :=
  then_run_iff hQ text

theorem then_through_iff (c : Char) (P Q : List Char → Prop) (text : List Char) :
    Then (fun s => c ∉ s ∧ P s) (Starts c Q) text ↔
      P (text.takeWhile (· ≠ c)) ∧ Starts c Q (text.dropWhile (· ≠ c)) := by
  have havoid : Avoids (· ≠ c) (Starts c Q) := avoids_starts (by simp) Q
  constructor
  · rintro ⟨s, t, ⟨hs, hP⟩, ht, rfl⟩
    have hall : ∀ d ∈ s, decide (d ≠ c) = true := by
      intro d hd
      rw [decide_eq_true_eq]
      exact fun h => hs (h ▸ hd)
    rw [takeWhile_append_of_avoids havoid hall ht, dropWhile_append_of_avoids havoid hall ht]
    exact ⟨hP, ht⟩
  · rintro ⟨hP, hQ⟩
    refine ⟨_, _, ⟨?_, hP⟩, hQ, List.takeWhile_append_dropWhile.symm⟩
    intro hmem
    have hne := List.mem_takeWhile_imp hmem
    simp at hne

/-! ### Names -/

variable [IdentifierTables]

theorem then_className_iff {Q : List Char → Prop} (hQ : Avoids isStyleClassChar Q)
    (text : List Char) :
    Then IsClassName Q text ↔
      text.head?.any isStyleClassChar = true ∧ Q (text.dropWhile isStyleClassChar) :=
  then_nonempty_run_iff hQ text

variable [LawfulIdentifierTables]

theorem IsIdentifier.isRun {s : List Char} (h : IsIdentifier s) :
    s ≠ [] ∧ ∀ c ∈ s, isIdentifierContinue c = true := by
  cases s with
  | nil => exact absurd h id
  | cons c cs =>
      refine ⟨List.cons_ne_nil c cs, ?_⟩
      intro d hd
      rcases List.mem_cons.mp hd with rfl | hd
      · exact isIdentifierContinue_of_start h.1
      · exact h.2 d hd

theorem then_identifier_iff {Q : List Char → Prop} (hQ : Avoids isIdentifierContinue Q)
    (text : List Char) :
    Then IsIdentifier Q text ↔
      text.head?.any isIdentifierStart = true ∧ Q (text.dropWhile isIdentifierContinue) := by
  constructor
  · rintro ⟨s, t, hs, ht, rfl⟩
    rw [dropWhile_append_of_avoids hQ hs.isRun.2 ht]
    refine ⟨?_, ht⟩
    cases s with
    | nil => exact absurd hs id
    | cons c cs => simpa using hs.1
  · rintro ⟨hhead, h⟩
    cases text with
    | nil => simp at hhead
    | cons c text =>
        have hc : isIdentifierStart c = true := by simpa using hhead
        rw [List.dropWhile_cons, if_pos (isIdentifierContinue_of_start hc)] at h
        refine ⟨c :: text.takeWhile isIdentifierContinue, _,
          ⟨hc, fun d => List.mem_takeWhile_imp⟩, h, ?_⟩
        rw [List.cons_append, List.takeWhile_append_dropWhile]

/-- A type name is read as an identifier, and as another one if a bar follows. -/
theorem then_typeName_iff {Q : List Char → Prop} (hQ : Avoids isIdentifierContinue Q)
    (text : List Char) :
    Then IsTypeName Q text ↔
      text.head?.any isIdentifierStart = true ∧
        (Q (text.dropWhile isIdentifierContinue) ∨
          Starts '|' (Then IsIdentifier Q) (text.dropWhile isIdentifierContinue)) := by
  have havoid : Avoids isIdentifierContinue (Starts '|' (Then IsIdentifier Q)) :=
    avoids_starts (isIdentifierContinue_of_delimiter (by decide)) _
  have hsplit : Then IsTypeName Q text ↔
      Then IsIdentifier Q text ∨ Then IsIdentifier (Starts '|' (Then IsIdentifier Q)) text := by
    constructor
    · rintro ⟨name, u, hname, hu, rfl⟩
      cases hname with
      | plain hs => exact .inl ⟨name, u, hs, hu, rfl⟩
      | @qualified s t hs ht =>
          exact .inr ⟨s, _, hs, ⟨t ++ u, ⟨t, u, ht, hu, rfl⟩, rfl⟩, by simp⟩
    · rintro (⟨s, u, hs, hu, rfl⟩ | ⟨s, -, hs, ⟨-, ⟨t, u, ht, hu, rfl⟩, rfl⟩, rfl⟩)
      · exact ⟨s, u, .plain hs, hu, rfl⟩
      · exact ⟨s ++ '|' :: t, u, .qualified hs ht, hu, by simp⟩
  rw [hsplit, then_identifier_iff hQ, then_identifier_iff havoid]
  exact and_or_left.symm

end XamlAssist.Selector
