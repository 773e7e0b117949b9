import Mathlib.Data.List.DropRight
import Mathlib.Data.List.TakeWhile
import XamlAssist.GenericName

/-!
# Names of nested instances

A name such as `A<B<C>>` is taken apart from the outside in. Main statement: `parse?_nested`.
-/

namespace XamlAssist

open Text

/-- A name with no part of its own: it has no brackets, no commas and no blanks at its ends. -/
structure IsPlainName (name : List Char) : Prop where
  ne_nil : name ≠ []
  chars : ∀ c ∈ name, c ≠ '<' ∧ c ≠ '>' ∧ c ≠ ','
  head : ∀ c ∈ name.head?, isBlank c = false
  last : ∀ c ∈ name.getLast?, isBlank c = false

theorem trim_eq_rdropWhile (text : List Char) :
    trim text = (text.dropWhile isBlank).rdropWhile isBlank := rfl

theorem trim_eq_self {name : List Char} (hhead : ∀ c ∈ name.head?, isBlank c = false)
    (hlast : ∀ c ∈ name.getLast?, isBlank c = false) : trim name = name := by
  have hdrop : name.dropWhile isBlank = name := by
    cases name with
    | nil => rfl
    | cons c name => exact List.dropWhile_cons_of_neg (by simp [hhead c rfl])
  rw [trim_eq_rdropWhile, hdrop, List.rdropWhile_eq_self_iff]
  intro hne
  simp [hlast _ (List.getLast?_eq_some_getLast hne)]

theorem IsPlainName.trim_eq {name : List Char} (h : IsPlainName name) : trim name = name :=
  trim_eq_self h.head h.last

namespace GenericName

/-- An instance whose argument is an instance, and so on: the names of the generic types from the
outside in, around the innermost argument. -/
def nested : List (List Char) → List Char → List Char
  | [], inner => inner
  | head :: heads, inner => head ++ '<' :: (nested heads inner ++ ['>'])

variable {heads : List (List Char)} {inner : List Char}

theorem nested_ne_nil (hinner : IsPlainName inner) : nested heads inner ≠ [] := by
  cases heads with
  | nil => exact hinner.ne_nil
  | cons head heads => simp [nested]

private theorem nested_head (hheads : ∀ head ∈ heads, IsPlainName head)
    (hinner : IsPlainName inner) :
    ∀ c ∈ (nested heads inner).head?, isBlank c = false := by
  cases heads with
  | nil => exact hinner.head
  | cons head heads =>
      have hhead := hheads head List.mem_cons_self
      obtain ⟨c, cs, rfl⟩ := List.exists_cons_of_ne_nil hhead.ne_nil
      exact hhead.head

private theorem nested_last (hinner : IsPlainName inner) :
    ∀ c ∈ (nested heads inner).getLast?, isBlank c = false := by
  cases heads with
  | nil => exact hinner.last
  | cons head heads =>
      intro c hc
      have hlast : (nested (head :: heads) inner).getLast? = some '>' := by
        simp [nested, List.getLast?_append, List.getLast?_cons]
      obtain rfl := Option.some.inj (hlast.symm.trans hc)
      decide

theorem trim_nested (hheads : ∀ head ∈ heads, IsPlainName head) (hinner : IsPlainName inner) :
    trim (nested heads inner) = nested heads inner :=
  trim_eq_self (nested_head hheads hinner) (nested_last hinner)

/-! ### Splitting -/

private theorem foldr_consPart (text : List Char) : text.foldr consPart [[]] = [text] := by
  induction text with
  | nil => rfl
  | cons c text ih => rw [List.foldr_cons, ih, consPart]

theorem splitArguments_open (depth : Nat) (rest : List Char) :
    splitArguments depth ('<' :: rest) =
      (splitArguments (depth + 1) rest).map (consPart '<') := by
  rw [splitArguments.eq_def]
  rfl

theorem splitArguments_close (depth : Nat) (rest : List Char) :
    splitArguments (depth + 1) ('>' :: rest) = (splitArguments depth rest).map (consPart '>') := by
  rw [splitArguments.eq_def]
  rfl

theorem splitArguments_other {depth : Nat} {c : Char} (hopen : c ≠ '<') (hclose : c ≠ '>')
    (hcomma : c = ',' → depth ≠ 0) (rest : List Char) :
    splitArguments depth (c :: rest) = (splitArguments depth rest).map (consPart c) := by
  have hinside : ¬ (c = ',' ∧ depth = 0) := fun h => hcomma h.1 h.2
  rw [splitArguments.eq_def]
  simp [hopen, hclose, hinside]

private theorem splitArguments_plain (depth : Nat) {text : List Char}
    (h : ∀ c ∈ text, c ≠ '<' ∧ c ≠ '>' ∧ c ≠ ',') (rest : List Char) :
    splitArguments depth (text ++ rest) =
      (splitArguments depth rest).map fun parts => text.foldr consPart parts := by
  induction text with
  | nil => simp
  | cons c text ih =>
      obtain ⟨hopen, hclose, hcomma⟩ := h c List.mem_cons_self
      rw [List.cons_append, splitArguments_other hopen hclose fun heq => absurd heq hcomma,
        ih fun d hd => h d (List.mem_cons_of_mem c hd), Option.map_map]
      rfl

private theorem splitArguments_nested (depth : Nat) (hheads : ∀ head ∈ heads, IsPlainName head)
    (hinner : IsPlainName inner) (rest : List Char) :
    splitArguments depth (nested heads inner ++ rest) =
      (splitArguments depth rest).map fun parts => (nested heads inner).foldr consPart parts := by
  induction heads generalizing depth rest with
  | nil => exact splitArguments_plain depth hinner.chars rest
  | cons head heads ih =>
      have hhead := hheads head List.mem_cons_self
      have hsplit : nested (head :: heads) inner ++ rest =
          head ++ ('<' :: (nested heads inner ++ ('>' :: rest))) := by simp [nested]
      rw [hsplit, splitArguments_plain depth hhead.chars, splitArguments_open,
        ih (depth + 1) (fun other h => hheads other (List.mem_cons_of_mem head h)),
        splitArguments_close]
      simp [nested, Option.map_map, Function.comp_def]

private theorem ne_open_of_not_mem {head : List Char} (h : '<' ∉ head) :
    ∀ c ∈ head, decide (c ≠ '<') = true := by
  intro c hc
  rw [decide_eq_true_eq]
  exact fun hopen => h (hopen ▸ hc)

theorem bracketed?_append {head : List Char} (hhead : '<' ∉ head) (text : List Char) :
    bracketed? (head ++ '<' :: (text ++ ['>'])) = some text := by
  have hdrop : (head ++ '<' :: (text ++ ['>'])).dropWhile (· ≠ '<') = '<' :: (text ++ ['>']) := by
    rw [List.dropWhile_append_of_pos (ne_open_of_not_mem hhead)]
    simp
  rw [bracketed?, hdrop]
  simp

theorem before_append {head : List Char} (hhead : '<' ∉ head) (text : List Char) :
    before '<' (head ++ '<' :: text) = head := by
  rw [before, List.takeWhile_append_of_pos (ne_open_of_not_mem hhead)]
  simp

/-- The name under which the generic type `head` of one argument is declared. -/
def definitionOf (head : List Char) : String := String.ofList (declaredName head 1)

/-- An instance is taken apart into its generic type and its argument. -/
theorem parse?_nested {head : List Char} (hheads : ∀ other ∈ head :: heads, IsPlainName other)
    (hinner : IsPlainName inner) :
    parse? (nested (head :: heads) inner) =
      some ⟨definitionOf head, [String.ofList (nested heads inner)]⟩ := by
  have hhead : '<' ∉ head := fun h => ((hheads head List.mem_cons_self).chars '<' h).1 rfl
  have hrest : ∀ other ∈ heads, IsPlainName other :=
    fun other h => hheads other (List.mem_cons_of_mem head h)
  have hsplit := splitArguments_nested 0 hrest hinner []
  rw [List.append_nil] at hsplit
  rw [parse?, nested, bracketed?_append hhead]
  simp only [Option.bind_eq_bind, Option.bind_some, hsplit, splitArguments, if_true,
    Option.map_some, foldr_consPart, List.map_cons, List.map_nil, trim_nested hrest hinner,
    before_append hhead]
  rw [if_neg (by simp [nested_ne_nil hinner])]
  rfl

theorem parse?_plain {name : List Char} (h : '<' ∉ name) : parse? name = none := by
  have hdrop : name.dropWhile (· ≠ '<') = [] :=
    List.dropWhile_eq_nil_iff.mpr (ne_open_of_not_mem h)
  rw [parse?, bracketed?, hdrop]
  rfl

private theorem consPart_ne_nil (c : Char) (parts : List (List Char)) : consPart c parts ≠ [] := by
  cases parts <;> simp [consPart]

theorem splitArguments_ne_nil {depth : Nat} {text : List Char} {parts : List (List Char)}
    (h : splitArguments depth text = some parts) : parts ≠ [] := by
  cases text with
  | nil =>
      rw [splitArguments] at h
      split at h
      · obtain rfl := Option.some.inj h
        exact List.cons_ne_nil _ _
      · exact absurd h (by simp)
  | cons c rest =>
      have hpart {deeper : Nat}
          (hrest : (splitArguments deeper rest).map (consPart c) = some parts) : parts ≠ [] := by
        obtain ⟨others, -, rfl⟩ := Option.map_eq_some_iff.mp hrest
        exact consPart_ne_nil c others
      rw [splitArguments.eq_def] at h
      dsimp only at h
      split at h
      · exact hpart h
      split at h
      · split at h
        · exact absurd h (by simp)
        · exact hpart h
      split at h
      · obtain ⟨others, -, rfl⟩ := Option.map_eq_some_iff.mp h
        exact List.cons_ne_nil _ _
      · exact hpart h

theorem arguments_ne_nil {name : String} {generic : GenericName}
    (h : ofString? name = some generic) : generic.arguments ≠ [] := by
  rw [ofString?, parse?] at h
  obtain ⟨inner, -, h⟩ := Option.bind_eq_some_iff.mp h
  obtain ⟨parts, hparts, h⟩ := Option.bind_eq_some_iff.mp h
  dsimp only at h
  split at h
  · exact absurd h (by simp)
  · obtain rfl := Option.some.inj h
    simpa using splitArguments_ne_nil hparts

theorem headD_mem_arguments {name : String} {generic : GenericName}
    (h : ofString? name = some generic) : generic.arguments.headD "" ∈ generic.arguments := by
  obtain ⟨first, others, heq⟩ := List.exists_cons_of_ne_nil (arguments_ne_nil h)
  rw [heq]
  exact List.mem_cons_self

/-- A character that may stand anywhere in a plain name. -/
def isPlainChar (c : Char) : Bool := c != '<' && c != '>' && c != ',' && !isBlank c

theorem isPlainName_of_all {name : List Char} (hne : name ≠ [])
    (h : name.all isPlainChar = true) : IsPlainName name := by
  have hchars : ∀ c ∈ name, (c ≠ '<' ∧ c ≠ '>' ∧ c ≠ ',') ∧ isBlank c = false := by
    intro c hc
    simpa [isPlainChar, and_assoc] using List.all_eq_true.mp h c hc
  exact ⟨hne, fun c hc => (hchars c hc).1, fun c hc => (hchars c (List.mem_of_head? hc)).2,
    fun c hc => (hchars c (List.mem_of_getLast? hc)).2⟩

private theorem definition_all {definition : String}
    (h : definition ∈ nullableDefinition :: collectionDefinitions) :
    definition.toList.all isPlainChar = true := by
  revert definition
  decide +kernel

theorem isPlainName_definition {definition : String}
    (h : definition ∈ nullableDefinition :: collectionDefinitions) :
    IsPlainName definition.toList := by
  refine isPlainName_of_all ?_ (definition_all h)
  rw [String.toList_eq_nil_iff.ne]
  rintro rfl
  exact absurd h (by decide +kernel)

theorem isPlainName_of_definitionOf_mem {head : List Char}
    (h : definitionOf head ∈ nullableDefinition :: collectionDefinitions) : IsPlainName head := by
  refine isPlainName_of_all ?_ (List.all_eq_true.mpr ?_)
  · rintro rfl
    exact absurd h (by decide +kernel)
  · intro c hc
    refine List.all_eq_true.mp (definition_all h) c ?_
    rw [definitionOf, String.toList_ofList, declaredName]
    split
    · exact hc
    · exact List.mem_append_left _ hc

/-! ### Nesting -/

theorem nestingFrom_open (depth : Nat) (rest : List Char) :
    nestingFrom depth ('<' :: rest) = max (depth + 1) (nestingFrom (depth + 1) rest) := rfl

theorem nestingFrom_close (depth : Nat) (rest : List Char) :
    nestingFrom (depth + 1) ('>' :: rest) = nestingFrom depth rest := rfl

theorem nestingFrom_other {depth : Nat} {c : Char} (hopen : c ≠ '<') (hclose : c ≠ '>')
    (rest : List Char) : nestingFrom depth (c :: rest) = nestingFrom depth rest := by
  rw [nestingFrom, if_neg hopen, if_neg hclose]

private theorem nestingFrom_plain (depth : Nat) {text : List Char}
    (h : ∀ c ∈ text, c ≠ '<' ∧ c ≠ '>' ∧ c ≠ ',') (rest : List Char) :
    nestingFrom depth (text ++ rest) = nestingFrom depth rest := by
  induction text with
  | nil => rfl
  | cons c text ih =>
      obtain ⟨hopen, hclose, -⟩ := h c List.mem_cons_self
      rw [List.cons_append, nestingFrom_other hopen hclose,
        ih fun d hd => h d (List.mem_cons_of_mem c hd)]

private theorem nestingFrom_nested (depth : Nat) (hheads : ∀ head ∈ heads, IsPlainName head)
    (hinner : IsPlainName inner) (rest : List Char) :
    nestingFrom depth (nested heads inner ++ rest) =
      max (if heads = [] then 0 else depth + heads.length) (nestingFrom depth rest) := by
  induction heads generalizing depth rest with
  | nil => simp [nested, nestingFrom_plain depth hinner.chars rest]
  | cons head heads ih =>
      have hhead := hheads head List.mem_cons_self
      have hsplit : nested (head :: heads) inner ++ rest =
          head ++ ('<' :: (nested heads inner ++ ('>' :: rest))) := by simp [nested]
      have hrest := ih (depth + 1)
        (fun other h => hheads other (List.mem_cons_of_mem head h)) ('>' :: rest)
      rw [hsplit, nestingFrom_plain depth hhead.chars, nestingFrom_open, hrest, nestingFrom_close,
        if_neg (List.cons_ne_nil _ _), List.length_cons]
      by_cases hnil : heads = []
      · rw [if_pos hnil, hnil, List.length_nil]
        omega
      · rw [if_neg hnil]
        omega

/-- The name of nested instances as a text. -/
def nestedName (heads : List (List Char)) (inner : List Char) : String :=
  String.ofList (nested heads inner)

theorem nesting_nestedName (hheads : ∀ head ∈ heads, IsPlainName head)
    (hinner : IsPlainName inner) : nesting (nestedName heads inner) = heads.length := by
  have h := nestingFrom_nested 0 hheads hinner []
  rw [List.append_nil] at h
  rw [nesting, nestedName, String.toList_ofList, h, nestingFrom]
  by_cases hnil : heads = []
  · simp [hnil]
  · simp [hnil]

theorem ofString?_nestedName {head : List Char}
    (hheads : ∀ other ∈ head :: heads, IsPlainName other) (hinner : IsPlainName inner) :
    ofString? (nestedName (head :: heads) inner) =
      some ⟨definitionOf head, [nestedName heads inner]⟩ := by
  rw [ofString?, nestedName, String.toList_ofList, parse?_nested hheads hinner, nestedName]

theorem ofString?_plain (h : IsPlainName inner) : ofString? (String.ofList inner) = none := by
  rw [ofString?, String.toList_ofList]
  exact parse?_plain fun hmem => (h.chars _ hmem).1 rfl

end GenericName

end XamlAssist
