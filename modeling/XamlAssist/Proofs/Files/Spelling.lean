import Mathlib.Logic.Relation
import XamlAssist.Files.Path

/-!
# Spellings of a path

A slash after a slash, a dot between two slashes and a slash at the end may be left out of the
spelling of a path. Main statement: `components_eq_iff_respelled`, two paths have the same
components exactly if such changes lead from the spelling of one to that of the other.
-/

namespace XamlAssist

open Text

namespace Text

/-! ### Parts -/

private theorem splitAtChar_ne_nil (separator : Char) (text : List Char) :
    splitAtChar separator text ≠ [] := by
  cases text with
  | nil => exact List.cons_ne_nil _ _
  | cons c rest =>
      rw [splitAtChar]
      split
      · exact List.cons_ne_nil _ _
      · unfold consPart
        split <;> exact List.cons_ne_nil _ _

private theorem consPart_append {c : Char} {parts : List (List Char)} (h : parts ≠ [])
    (more : List (List Char)) : consPart c (parts ++ more) = consPart c parts ++ more := by
  cases parts with
  | nil => exact absurd rfl h
  | cons part parts => rfl

private theorem splitAtChar_append (separator : Char) (s t : List Char) :
    splitAtChar separator (s ++ separator :: t) =
      splitAtChar separator s ++ splitAtChar separator t := by
  induction s with
  | nil => simp [splitAtChar]
  | cons c s ih =>
      rw [List.cons_append, splitAtChar, splitAtChar, ih]
      split
      · rfl
      · exact consPart_append (splitAtChar_ne_nil separator s) _

private theorem joinWith_cons {separator part : List Char} {parts : List (List Char)}
    (h : parts ≠ []) :
    joinWith separator (part :: parts) = part ++ separator ++ joinWith separator parts := by
  cases parts with
  | nil => exact absurd rfl h
  | cons second parts => rfl

private theorem joinWith_consPart {separator : List Char} {c : Char} {parts : List (List Char)}
    (h : parts ≠ []) : joinWith separator (consPart c parts) = c :: joinWith separator parts := by
  match parts with
  | [] => exact absurd rfl h
  | [part] => rfl
  | part :: second :: parts => rfl

private theorem joinWith_splitAtChar (separator : Char) (text : List Char) :
    joinWith [separator] (splitAtChar separator text) = text := by
  induction text with
  | nil => rfl
  | cons c rest ih =>
      have hne := splitAtChar_ne_nil separator rest
      rw [splitAtChar]
      split
      · next hc => rw [joinWith_cons hne, ih, hc, List.nil_append, List.singleton_append]
      · rw [joinWith_consPart hne, ih]

end Text

namespace Files

/-- The second text leaves out something that does not count in the first. -/
inductive LeavesOut : List Char → List Char → Prop
  | slash (before after : List Char) :
      LeavesOut (before ++ '/' :: '/' :: after) (before ++ '/' :: after)
  | dot (before after : List Char) :
      LeavesOut (before ++ '/' :: '.' :: '/' :: after) (before ++ '/' :: after)
  | lastSlash {before : List Char} : before ≠ [] → LeavesOut (before ++ ['/']) before

/-- The paths are spellings of one path. -/
def Path.Respelled (a b : Path) : Prop :=
  Relation.EqvGen LeavesOut a.text.toList b.text.toList

/-! ### Components of a text -/

namespace Path

private theorem componentsOf_append (parts more : List (List Char)) :
    componentsOf false (parts ++ more) = componentsOf false parts ++ componentsOf false more := by
  induction parts with
  | nil => rfl
  | cons part parts ih =>
      rw [List.cons_append, componentsOf, componentsOf, ih, List.append_assoc]

/-- The components of the parts of a text, the first of which is empty if a slash comes first. -/
def ofParts : List (List Char) → List Component
  | [] => []
  | first :: more =>
      (if first = [] ∧ more ≠ [] then [.root] else (componentOf? true first).toList) ++
        componentsOf false more

private theorem ofParts_append {parts more : List (List Char)} (hparts : parts ≠ [])
    (hmore : more ≠ []) :
    ofParts (parts ++ more) = ofParts (parts ++ [[]]) ++ componentsOf false more := by
  cases parts with
  | nil => exact absurd rfl hparts
  | cons first parts =>
      have hnil : componentsOf false [[]] = [] := rfl
      simp [ofParts, componentsOf_append, hmore, hnil]

private theorem components_eq_ofParts (path : Path) :
    path.components = ofParts (splitAtChar '/' path.text.toList) := by
  unfold components parts isAbsolute
  cases path.text.toList with
  | nil => rfl
  | cons c rest =>
      have hne := splitAtChar_ne_nil '/' rest
      by_cases hc : c = '/'
      · simp [hc, splitAtChar, ofParts, hne]
      · obtain ⟨part, parts, hparts⟩ := List.exists_cons_of_ne_nil hne
        simp [hc, splitAtChar, hparts, consPart, ofParts, componentsOf]

private theorem ofParts_slash (before after : List Char) :
    ofParts (splitAtChar '/' (before ++ '/' :: after)) =
      ofParts (splitAtChar '/' (before ++ ['/'])) ++
        componentsOf false (splitAtChar '/' after) := by
  rw [splitAtChar_append, splitAtChar_append]
  exact ofParts_append (splitAtChar_ne_nil _ _) (splitAtChar_ne_nil _ _)

private theorem ofParts_lastSlash {before : List Char} (h : before ≠ []) :
    ofParts (splitAtChar '/' (before ++ ['/'])) = ofParts (splitAtChar '/' before) := by
  rw [splitAtChar_append]
  obtain ⟨first, parts, hparts⟩ := List.exists_cons_of_ne_nil (splitAtChar_ne_nil '/' before)
  have hnil : componentsOf false (splitAtChar '/' []) = [] := rfl
  have hempty : first = [] → parts ≠ [] := by
    rintro rfl rfl
    have hjoin := joinWith_splitAtChar '/' before
    rw [hparts] at hjoin
    exact h hjoin.symm
  rw [hparts, List.cons_append, ofParts, ofParts, componentsOf_append, hnil, List.append_nil]
  by_cases hfirst : first = []
  · simp [hfirst, hempty hfirst]
  · simp [hfirst]

private theorem ofParts_eq_of_leavesOut {s t : List Char} (h : LeavesOut s t) :
    ofParts (splitAtChar '/' s) = ofParts (splitAtChar '/' t) := by
  cases h with
  | slash before after =>
      rw [ofParts_slash before ('/' :: after), ofParts_slash before after]
      rfl
  | dot before after =>
      rw [ofParts_slash before ('.' :: '/' :: after), ofParts_slash before after]
      rfl
  | lastSlash hne => exact ofParts_lastSlash hne

private theorem ofParts_eq_of_eqvGen {s t : List Char} (h : Relation.EqvGen LeavesOut s t) :
    ofParts (splitAtChar '/' s) = ofParts (splitAtChar '/' t) := by
  induction h with
  | rel s t h => exact ofParts_eq_of_leavesOut h
  | refl s => rfl
  | symm s t _ ih => exact ih.symm
  | trans s t u _ _ ihst ihtu => exact ihst.trans ihtu

end Path

/-! ### A spelling of the components -/

/-- The text of a component between its slashes. -/
def Component.chars : Component → List Char
  | .root => []
  | .here => ['.']
  | .up => ['.', '.']
  | .name text => text.toList

namespace Path

/-- The components with a slash before each. -/
def spellBehind (components : List Component) : List Char :=
  components.flatMap fun component => '/' :: component.chars

/-- A spelling of the path with the given components. -/
def spell : List Component → List Char
  | [] => []
  | .root :: components => '/' :: spellBehind components
  | first :: components => first.chars ++ spellBehind components

private theorem spell_cons {first : Component} (h : first ≠ .root) (components : List Component) :
    spell (first :: components) = first.chars ++ spellBehind components := by
  cases first with
  | root => exact absurd rfl h
  | here | up | name => rfl

private theorem chars_of_componentOf? {first : Bool} {part : List Char} {component : Component}
    (h : componentOf? first part = some component) :
    component.chars = part ∧ component ≠ .root := by
  unfold componentOf? at h
  split at h
  · simp at h
  split at h
  · next hdot =>
      split at h
      · obtain rfl := Option.some.inj h
        exact ⟨hdot.symm, by simp⟩
      · simp at h
  split at h
  · next hup =>
      obtain rfl := Option.some.inj h
      exact ⟨hup.symm, by simp⟩
  · obtain rfl := Option.some.inj h
    exact ⟨String.toList_ofList, by simp⟩

private theorem eq_of_componentOf?_eq_none {part : List Char} (h : componentOf? false part = none) :
    part = [] ∨ part = ['.'] := by
  unfold componentOf? at h
  split at h
  · next hempty => exact .inl hempty
  split at h
  · next hdot => exact .inr hdot
  split at h <;> simp at h

private theorem exists_componentOf? {part : List Char} (h : part ≠ []) :
    ∃ component, componentOf? true part = some component := by
  unfold componentOf?
  rw [if_neg h]
  split
  · exact ⟨.here, rfl⟩
  split
  · exact ⟨.up, rfl⟩
  · exact ⟨_, rfl⟩

private theorem leave_part {before part : List Char} (hbefore : before ≠ [])
    (hpart : componentOf? false part = none) :
    Relation.EqvGen LeavesOut (before ++ '/' :: part) before ∧
      ∀ after, LeavesOut (before ++ '/' :: (part ++ '/' :: after)) (before ++ '/' :: after) := by
  have hslash : Relation.EqvGen LeavesOut (before ++ ['/']) before :=
    .rel _ _ (.lastSlash hbefore)
  rcases eq_of_componentOf?_eq_none hpart with rfl | rfl
  · exact ⟨hslash, fun after => .slash before after⟩
  · refine ⟨?_, fun after => .dot before after⟩
    have hdot : Relation.EqvGen LeavesOut (before ++ ['/', '.'] ++ ['/']) (before ++ ['/', '.']) :=
      .rel _ _ (.lastSlash (by simp))
    have hinner : Relation.EqvGen LeavesOut (before ++ ['/', '.'] ++ ['/']) (before ++ ['/']) := by
      rw [List.append_assoc]
      exact .rel _ _ (.dot before [])
    exact .trans _ _ _ (.symm _ _ hdot) (.trans _ _ _ hinner hslash)

/-- Behind a text that is not empty, the parts may be spelled as their components are. -/
theorem respell_behind {before : List Char} (hbefore : before ≠ []) {parts : List (List Char)}
    (hparts : parts ≠ []) :
    Relation.EqvGen LeavesOut (before ++ '/' :: joinWith ['/'] parts)
      (before ++ spellBehind (componentsOf false parts)) := by
  induction parts generalizing before with
  | nil => exact absurd rfl hparts
  | cons part parts ih =>
      cases hpart : componentOf? false part with
      | none =>
          obtain ⟨hlast, hinner⟩ := leave_part hbefore hpart
          rw [componentsOf, hpart, Option.toList_none, List.nil_append]
          by_cases hmore : parts = []
          · subst hmore
            simpa [joinWith, componentsOf, spellBehind] using hlast
          · rw [joinWith_cons hmore, List.append_assoc]
            exact .trans _ _ _ (.rel _ _ (hinner _)) (ih hbefore hmore)
      | some component =>
          have hspell : spellBehind (componentsOf false (part :: parts)) =
              '/' :: part ++ spellBehind (componentsOf false parts) := by
            simp [componentsOf, hpart, spellBehind, (chars_of_componentOf? hpart).1]
          rw [hspell, ← List.append_assoc]
          by_cases hmore : parts = []
          · subst hmore
            simpa [joinWith, componentsOf, spellBehind] using Relation.EqvGen.refl _
          · have hlonger : before ++ '/' :: part ≠ [] := by simp
            rw [joinWith_cons hmore]
            simpa using ih hlonger hmore

/-- Every text may be spelled as its components are. -/
theorem respell_ofParts (text : List Char) :
    Relation.EqvGen LeavesOut text (spell (ofParts (splitAtChar '/' text))) := by
  obtain ⟨first, parts, hparts⟩ := List.exists_cons_of_ne_nil (splitAtChar_ne_nil '/' text)
  have htext := joinWith_splitAtChar '/' text
  rw [hparts] at htext ⊢
  rw [← htext, ofParts]
  by_cases hfirst : first = []
  · subst hfirst
    by_cases hmore : parts = []
    · subst hmore
      exact .refl []
    · have hroot : ['/'] ≠ [] := List.cons_ne_nil _ _
      rw [if_pos ⟨rfl, hmore⟩, joinWith_cons hmore]
      exact .trans _ _ _ (.symm _ _ (.rel _ _ (.slash [] _))) (respell_behind hroot hmore)
  · obtain ⟨component, hcomponent⟩ := exists_componentOf? hfirst
    obtain ⟨hchars, hroot⟩ := chars_of_componentOf? hcomponent
    rw [if_neg fun h => hfirst h.1, hcomponent, Option.toList_some, List.singleton_append,
      spell_cons hroot, hchars]
    by_cases hmore : parts = []
    · subst hmore
      simpa [joinWith, componentsOf, spellBehind] using Relation.EqvGen.refl _
    · rw [joinWith_cons hmore, List.append_assoc]
      exact respell_behind hfirst hmore

/-- Two paths have the same components exactly if they are spellings of one path. -/
theorem components_eq_iff_respelled (a b : Path) :
    a.components = b.components ↔ a.Respelled b := by
  rw [components_eq_ofParts, components_eq_ofParts]
  refine ⟨fun h => ?_, ofParts_eq_of_eqvGen⟩
  have hb := respell_ofParts b.text.toList
  rw [← h] at hb
  exact .trans _ _ _ (respell_ofParts a.text.toList) (.symm _ _ hb)

/-- A dot at the start and two dots count. -/
example : components ⟨"./a"⟩ ≠ components ⟨"a"⟩ ∧ components ⟨"a/../b"⟩ ≠ components ⟨"b"⟩ := by
  decide +kernel

end Path

end Files

end XamlAssist
