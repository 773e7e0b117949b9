import XamlAssist.Proofs.GenericName
import XamlAssist.Proofs.Text.Brackets
import XamlAssist.Proofs.Text.Decimal

/-!
# The spelling of instances

An instance is spelled with the name of its generic type and, in angle brackets, its arguments
between commas. An argument may have brackets and commas of its own, as long as its brackets match
and the commas are inside them. Main statement: `ofString?_spelled`, exactly these names are taken
apart, and a written instance is read back.
-/

namespace XamlAssist.GenericName

open Text

/-- A text that may stand between the commas: its brackets match, its commas are inside them, and it
is not blank. -/
structure IsArgument (text : List Char) : Prop where
  balanced : Balanced text
  commas : ∀ before after, text = before ++ ',' :: after → before.count '>' < before.count '<'
  nonblank : ∃ c ∈ text, isBlank c = false

/-- The parts of the name of an instance: the text before the brackets and the pieces between the
commas. -/
structure Spelling where
  head : List Char
  pieces : List (List Char)
  plain : '<' ∉ head
  pieces_ne : pieces ≠ []
  isArgument : ∀ piece ∈ pieces, IsArgument piece

namespace Spelling

def chars (spelling : Spelling) : List Char :=
  spelling.head ++ '<' :: ([','].intercalate spelling.pieces ++ ['>'])

/-- The instance that is spelled: a name without a number of parameters gets the number of
arguments, and the blanks around an argument do not count. -/
def meaning (spelling : Spelling) : GenericName :=
  { definition :=
      if arityMark ∈ spelling.head then String.ofList spelling.head
      else String.ofList spelling.head ++ "`" ++ toString spelling.pieces.length
    arguments := spelling.pieces.map fun piece => String.ofList (trim piece) }

end Spelling

/-! ### Pieces -/

/-- A text between commas behind `depth` open brackets. -/
structure IsPiece (depth : Nat) (text : List Char) : Prop where
  closes : Closes depth text
  commas : ∀ before after, text = before ++ ',' :: after →
    before.count '>' < depth + before.count '<'

variable {depth : Nat} {text : List Char}

private theorem isPiece_nil_iff : IsPiece depth [] ↔ depth = 0 := by
  constructor
  · intro h
    exact closes_nil_iff.mp h.closes
  · intro h
    exact ⟨closes_nil_iff.mpr h, by simp⟩

private theorem not_isPiece_close : ¬ IsPiece 0 ('>' :: text) := fun h => not_closes_close h.closes

private theorem isPiece_cons_iff {c : Char} {next : Nat}
    (hnext : depth + [c].count '<' = next + [c].count '>') :
    IsPiece depth (c :: text) ↔ (c = ',' → depth ≠ 0) ∧ IsPiece next text := by
  have hcount (d : Char) (rest : List Char) :
      (c :: rest).count d = [c].count d + rest.count d := by
    rw [← List.count_append, List.singleton_append]
  constructor
  · rintro ⟨hcloses, hcommas⟩
    refine ⟨?_, (closes_cons_iff hnext).mp hcloses, ?_⟩
    · rintro rfl rfl
      exact absurd (hcommas [] text rfl) (by simp)
    · rintro before after rfl
      have hbefore := hcommas (c :: before) after rfl
      rw [hcount '<' before, hcount '>' before] at hbefore
      omega
  · rintro ⟨hcomma, hcloses, hcommas⟩
    refine ⟨(closes_cons_iff hnext).mpr hcloses, ?_⟩
    intro before after heq
    rcases List.append_eq_cons_iff.mp heq.symm with ⟨rfl, hhere⟩ | ⟨rest, rfl, hrest⟩
    · have hdepth := hcomma (List.cons.inj hhere).1.symm
      simp only [List.count_nil]
      omega
    · have hrest := hcommas rest after hrest
      rw [hcount '<' rest, hcount '>' rest]
      omega

private theorem isArgument_iff :
    IsArgument text ↔ IsPiece 0 text ∧ ∃ c ∈ text, isBlank c = false := by
  constructor
  · rintro ⟨hbalanced, hcommas, hnonblank⟩
    exact ⟨⟨closes_zero_iff.mpr hbalanced, by simpa using hcommas⟩, hnonblank⟩
  · rintro ⟨⟨hcloses, hcommas⟩, hnonblank⟩
    exact ⟨closes_zero_iff.mp hcloses, by simpa using hcommas, hnonblank⟩

/-! ### Splitting -/

private theorem cons_eq_intercalate_iff {c : Char} {first : List Char} {rest : List (List Char)} :
    c :: text = [','].intercalate (first :: rest) ↔
      (∃ tail, first = c :: tail ∧ text = [','].intercalate (tail :: rest)) ∨
        (first = [] ∧ c = ',' ∧ rest ≠ [] ∧ text = [','].intercalate rest) := by
  have hcons (tail : List Char) :
      [','].intercalate ((c :: tail) :: rest) = c :: [','].intercalate (tail :: rest) := by
    cases rest <;> simp [List.intercalate_cons_cons]
  constructor
  · intro h
    cases first with
    | nil =>
        right
        cases rest with
        | nil => simp at h
        | cons second others =>
            rw [List.intercalate_cons_cons] at h
            obtain ⟨rfl, rfl⟩ := List.cons.inj h
            exact ⟨rfl, rfl, List.cons_ne_nil _ _, rfl⟩
    | cons d tail =>
        left
        obtain rfl : c = d := by
          cases rest <;> simp_all [List.intercalate_cons_cons]
        rw [hcons] at h
        exact ⟨tail, rfl, (List.cons.inj h).2⟩
  · rintro (⟨tail, rfl, rfl⟩ | ⟨rfl, rfl, hne, rfl⟩)
    · exact (hcons tail).symm
    · rw [List.intercalate_cons_of_ne_nil hne]
      rfl

/-- The pieces that a text is split into: the first one behind the brackets that are open, and each
other one behind a comma outside all brackets. -/
def IsSplit (depth : Nat) (text : List Char) (first : List Char) (rest : List (List Char)) : Prop :=
  text = [','].intercalate (first :: rest) ∧ IsPiece depth first ∧ ∀ piece ∈ rest, IsPiece 0 piece

/-- A character that ends no piece is put in front of the first one. -/
theorem splitArguments_cons_iff {c : Char} {next : Nat}
    (hstep : splitArguments depth (c :: text) = (splitArguments next text).map (consPart c))
    (hnext : depth + [c].count '<' = next + [c].count '>') (hcomma : c = ',' → depth ≠ 0)
    (ih : ∀ first rest, splitArguments next text = some (first :: rest) ↔
      IsSplit next text first rest)
    (first : List Char) (rest : List (List Char)) :
    splitArguments depth (c :: text) = some (first :: rest) ↔
      IsSplit depth (c :: text) first rest := by
  rw [hstep, Option.map_eq_some_iff]
  constructor
  · rintro ⟨parts, hparts, heq⟩
    obtain ⟨tail, others, rfl⟩ := List.exists_cons_of_ne_nil (splitArguments_ne_nil hparts)
    obtain ⟨rfl, rfl⟩ := List.cons.inj heq
    obtain ⟨htext, hpiece, hothers⟩ := (ih tail others).mp hparts
    exact ⟨cons_eq_intercalate_iff.mpr (.inl ⟨tail, rfl, htext⟩),
      (isPiece_cons_iff hnext).mpr ⟨hcomma, hpiece⟩, hothers⟩
  · rintro ⟨htext, hpiece, hothers⟩
    rcases cons_eq_intercalate_iff.mp htext with ⟨tail, rfl, hbehind⟩ | ⟨rfl, hc, -, -⟩
    · have htail := ((isPiece_cons_iff hnext).mp hpiece).2
      exact ⟨tail :: rest, (ih tail rest).mpr ⟨hbehind, htail, hothers⟩, rfl⟩
    · exact absurd (isPiece_nil_iff.mp hpiece) (hcomma hc)

private theorem splitArguments_eq_some_iff (first : List Char) (rest : List (List Char)) :
    splitArguments depth text = some (first :: rest) ↔ IsSplit depth text first rest := by
  induction text generalizing depth first rest with
  | nil =>
      rw [splitArguments]
      constructor
      · intro h
        split at h
        · next hdepth =>
            obtain ⟨rfl, rfl⟩ := List.cons.inj (Option.some.inj h)
            exact ⟨rfl, isPiece_nil_iff.mpr hdepth, by simp⟩
        · exact absurd h (by simp)
      · rintro ⟨htext, hpiece, -⟩
        obtain ⟨rfl, rfl⟩ : first = [] ∧ rest = [] := by
          cases rest <;> simp_all [List.intercalate_cons_cons]
        rw [if_pos (isPiece_nil_iff.mp hpiece)]
  | cons c text ih =>
      by_cases hopen : c = '<'
      · subst hopen
        exact splitArguments_cons_iff (splitArguments_open depth text) rfl (by simp)
          (fun _ _ => ih _ _) first rest
      by_cases hclose : c = '>'
      · subst hclose
        cases depth with
        | succ depth =>
            exact splitArguments_cons_iff (splitArguments_close depth text) rfl (by simp)
              (fun _ _ => ih _ _) first rest
        | zero =>
            have hnone : splitArguments 0 ('>' :: text) = none := rfl
            rw [hnone]
            refine ⟨fun h => absurd h (by simp), ?_⟩
            rintro ⟨htext, hpiece, -⟩
            rcases cons_eq_intercalate_iff.mp htext with ⟨tail, rfl, -⟩ | ⟨-, hcomma, -, -⟩
            · exact absurd hpiece not_isPiece_close
            · exact absurd hcomma (by decide)
      by_cases hinside : c = ',' → depth ≠ 0
      · exact splitArguments_cons_iff (splitArguments_other hopen hclose hinside text)
          (by simp [hopen, hclose]) hinside (fun _ _ => ih _ _) first rest
      obtain ⟨rfl, rfl⟩ : c = ',' ∧ depth = 0 := by simpa using hinside
      have hstep : splitArguments 0 (',' :: text) = (splitArguments 0 text).map ([] :: ·) := by
        rw [splitArguments.eq_def]
        rfl
      rw [hstep, Option.map_eq_some_iff]
      constructor
      · rintro ⟨parts, hparts, heq⟩
        obtain ⟨rfl, rfl⟩ := List.cons.inj heq
        obtain ⟨second, others, rfl⟩ := List.exists_cons_of_ne_nil (splitArguments_ne_nil hparts)
        obtain ⟨htext, hpiece, hothers⟩ := (ih second others).mp hparts
        refine ⟨cons_eq_intercalate_iff.mpr (.inr ⟨rfl, rfl, List.cons_ne_nil _ _, htext⟩),
          isPiece_nil_iff.mpr rfl, ?_⟩
        exact List.forall_mem_cons.mpr ⟨hpiece, hothers⟩
      · rintro ⟨htext, hpiece, hothers⟩
        rcases cons_eq_intercalate_iff.mp htext with ⟨tail, rfl, -⟩ | ⟨rfl, -, hne, hbehind⟩
        · exact absurd rfl (((isPiece_cons_iff rfl).mp hpiece).1 rfl)
        · obtain ⟨second, others, rfl⟩ := List.exists_cons_of_ne_nil hne
          obtain ⟨hsecond, hothers⟩ := List.forall_mem_cons.mp hothers
          exact ⟨_, (ih second others).mpr ⟨hbehind, hsecond, hothers⟩, rfl⟩

/-! ### Names -/

private theorem bracketed?_eq_some_iff {name inner : List Char} :
    bracketed? name = some inner ↔
      ∃ head, '<' ∉ head ∧ name = head ++ '<' :: (inner ++ ['>']) := by
  constructor
  · intro h
    have hname := List.takeWhile_append_dropWhile (p := fun c => decide (c ≠ '<')) (l := name)
    have hfirst := List.head?_dropWhile_not (fun c => decide (c ≠ '<')) name
    rw [bracketed?] at h
    cases hdrop : name.dropWhile (fun c => decide (c ≠ '<')) with
    | nil =>
        rw [hdrop] at h
        exact absurd h (by simp)
    | cons c rest =>
        rw [hdrop] at h hname hfirst
        obtain rfl : c = '<' := by simpa using hfirst
        dsimp only at h
        split at h
        · next hlast =>
            obtain ⟨shorter, rfl⟩ := List.getLast?_eq_some_iff.mp hlast
            rw [List.dropLast_concat] at h
            obtain rfl := Option.some.inj h
            refine ⟨_, fun hmem => ?_, hname.symm⟩
            have hne := List.mem_takeWhile_imp hmem
            exact absurd hne (by simp)
        · exact absurd h (by simp)
  · rintro ⟨head, hhead, rfl⟩
    exact bracketed?_append hhead inner

private theorem trim_eq_nil_iff : trim text = [] ↔ ∀ c ∈ text, isBlank c = true := by
  rw [trim, trimBy, List.reverse_eq_nil_iff, List.dropWhile_eq_nil_iff]
  simp only [List.mem_reverse]
  constructor
  · intro h
    by_contra hsome
    have hne : text.dropWhile isBlank ≠ [] := fun hnil =>
      hsome (List.dropWhile_eq_nil_iff.mp hnil)
    have hfirst := List.head_dropWhile_not isBlank hne
    rw [h _ (List.head_mem hne)] at hfirst
    exact Bool.noConfusion hfirst
  · intro h c hc
    exact h c ((List.dropWhile_sublist isBlank).mem hc)

private theorem isArgument_iff_of_isPiece (h : IsPiece 0 text) :
    IsArgument text ↔ (trim text).isEmpty = false := by
  rw [isArgument_iff, and_iff_right h, List.isEmpty_eq_false_iff, ne_eq, trim_eq_nil_iff]
  simp

private theorem ofList_declaredName (head : List Char) (count : Nat) :
    String.ofList (declaredName head count) =
      if arityMark ∈ head then String.ofList head
      else String.ofList head ++ "`" ++ toString count := by
  rw [declaredName]
  by_cases hmark : arityMark ∈ head
  · rw [if_pos (List.contains_iff_mem.mpr hmark), if_pos hmark]
  · rw [if_neg (mt List.contains_iff_mem.mp hmark), if_neg hmark, toString_eq_decimalText,
      decimalText, ← String.toList_inj]
    simp [arityMark]

private theorem parse?_eq_some_iff_parts {name : List Char} {generic : GenericName} :
    parse? name = some generic ↔
      ∃ inner parts, bracketed? name = some inner ∧ splitArguments 0 inner = some parts ∧
        (∀ part ∈ parts, (trim part).isEmpty = false) ∧
        generic = ⟨String.ofList (declaredName (before '<' name) parts.length),
          parts.map fun part => String.ofList (trim part)⟩ := by
  rw [parse?]
  simp only [Option.bind_eq_bind, Option.bind_eq_some_iff]
  constructor
  · rintro ⟨inner, hinner, parts, hparts, h⟩
    split at h
    · exact absurd h (by simp)
    · next hblank =>
        refine ⟨inner, parts, hinner, hparts, by simpa using hblank, ?_⟩
        rw [← Option.some.inj h, List.length_map, List.map_map]
        rfl
  · rintro ⟨inner, parts, hinner, hparts, hblank, rfl⟩
    refine ⟨inner, hinner, parts, hparts, ?_⟩
    rw [if_neg (by simpa using hblank), List.length_map, List.map_map]
    rfl

/-- Exactly the spelled names are taken apart, into what they spell. -/
theorem parse?_eq_some_iff {name : List Char} {generic : GenericName} :
    parse? name = some generic ↔
      ∃ spelling : Spelling, spelling.chars = name ∧ spelling.meaning = generic := by
  rw [parse?_eq_some_iff_parts]
  constructor
  · rintro ⟨inner, parts, hinner, hparts, hblank, rfl⟩
    obtain ⟨head, hhead, rfl⟩ := bracketed?_eq_some_iff.mp hinner
    obtain ⟨first, rest, rfl⟩ := List.exists_cons_of_ne_nil (splitArguments_ne_nil hparts)
    obtain ⟨rfl, hfirst, hrest⟩ := (splitArguments_eq_some_iff first rest).mp hparts
    have hpieces : ∀ piece ∈ first :: rest, IsArgument piece := by
      intro piece hpiece
      have hzero := List.forall_mem_cons.mpr ⟨hfirst, hrest⟩ piece hpiece
      exact (isArgument_iff_of_isPiece hzero).mpr (hblank piece hpiece)
    refine ⟨⟨head, first :: rest, hhead, List.cons_ne_nil _ _, hpieces⟩, rfl, ?_⟩
    rw [before_append hhead, ofList_declaredName]
    rfl
  · rintro ⟨⟨head, pieces, hhead, hne, hpieces⟩, rfl, rfl⟩
    have hzero : ∀ piece ∈ pieces, IsPiece 0 piece :=
      fun piece hpiece => (isArgument_iff.mp (hpieces piece hpiece)).1
    have hsplit : splitArguments 0 ([','].intercalate pieces) = some pieces := by
      obtain ⟨first, rest, rfl⟩ := List.exists_cons_of_ne_nil hne
      obtain ⟨hfirst, hrest⟩ := List.forall_mem_cons.mp hzero
      exact (splitArguments_eq_some_iff first rest).mpr ⟨rfl, hfirst, hrest⟩
    refine ⟨_, pieces, bracketed?_append hhead _, hsplit, fun piece hpiece => ?_, ?_⟩
    · exact (isArgument_iff_of_isPiece (hzero piece hpiece)).mp (hpieces piece hpiece)
    · rw [Spelling.chars, before_append hhead, ofList_declaredName]
      rfl

private theorem notMem_declaredName {head : List Char} (h : '<' ∉ head) (count : Nat) :
    '<' ∉ declaredName head count := by
  rw [declaredName]
  split
  · exact h
  · intro hmem
    rcases List.mem_append.mp hmem with hhead | hrest
    · exact h hhead
    rcases List.mem_cons.mp hrest with hmark | hdigit
    · exact absurd hmark (by decide)
    · exact absurd (List.all_eq_true.mp (all_isDigit_decimal count) '<' hdigit) (by decide)

theorem ofString?_definition {name : String} {generic : GenericName}
    (h : ofString? name = some generic) : ofString? generic.definition = none := by
  obtain ⟨inner, parts, -, -, -, rfl⟩ := parse?_eq_some_iff_parts.mp h
  have hhead : '<' ∉ before '<' name.toList := by
    intro hmem
    exact absurd (List.mem_takeWhile_imp hmem) (by simp)
  rw [ofString?, String.toList_ofList]
  exact parse?_plain (notMem_declaredName hhead parts.length)

theorem exists_append_trim (text : List Char) :
    ∃ lead trail, text = lead ++ (trim text ++ trail) ∧ (∀ c ∈ lead, isBlank c = true) ∧
      ∀ c ∈ trail, isBlank c = true := by
  refine ⟨text.takeWhile isBlank, (text.dropWhile isBlank).rtakeWhile isBlank, ?_,
    fun c hc => List.mem_takeWhile_imp hc, fun c hc => List.mem_rtakeWhile_imp hc⟩
  rw [trim_eq_rdropWhile, List.rdropWhile_append_rtakeWhile, List.takeWhile_append_dropWhile]

private theorem trim_trim (text : List Char) : trim (trim text) = trim text := by
  have hfirst := List.head?_dropWhile_not isBlank text
  obtain ⟨trail, heq⟩ : trim text <+: text.dropWhile isBlank := List.rdropWhile_prefix _ _
  refine trim_eq_self (fun c hc => ?_) fun c hc => ?_
  · rw [← heq, List.head?_append, hc] at hfirst
    exact hfirst
  · have hne : trim text ≠ [] := by
      rintro hnil
      simp [hnil] at hc
    have hlast := List.rdropWhile_last_not isBlank (text.dropWhile isBlank) hne
    rw [List.getLast?_eq_some_getLast hne] at hc
    rw [← Option.some.inj hc]
    exact Bool.eq_false_iff.mpr hlast

theorem trim_of_mem_arguments {name : String} {generic : GenericName}
    (h : ofString? name = some generic) {argument : String} (hmem : argument ∈ generic.arguments) :
    trim argument.toList = argument.toList := by
  obtain ⟨spelling, -, rfl⟩ := parse?_eq_some_iff.mp h
  obtain ⟨piece, -, rfl⟩ := List.mem_map.mp hmem
  rw [String.toList_ofList, trim_trim]

private theorem balanced_of_blank (h : ∀ c ∈ text, isBlank c = true) : Balanced text := by
  refine balanced_of_plain (fun hmem => ?_) fun hmem => ?_
  · exact absurd (h '<' hmem) (by decide)
  · exact absurd (h '>' hmem) (by decide)

private theorem balanced_trim (h : Balanced text) : Balanced (trim text) := by
  obtain ⟨lead, trail, heq, hlead, htrail⟩ := exists_append_trim text
  rw [heq] at h
  have hrest := h.left_iff_right.mp (balanced_of_blank hlead)
  exact hrest.left_iff_right.mpr (balanced_of_blank htrail)

theorem balanced_of_mem_arguments {name : String} {generic : GenericName}
    (h : ofString? name = some generic) {argument : String} (hmem : argument ∈ generic.arguments) :
    Balanced argument.toList := by
  obtain ⟨spelling, -, rfl⟩ := parse?_eq_some_iff.mp h
  obtain ⟨piece, hpiece, rfl⟩ := List.mem_map.mp hmem
  rw [String.toList_ofList]
  exact balanced_trim (spelling.isArgument piece hpiece).balanced

/-! ### Written instances -/

/-- The name of an instance, written without blanks. -/
def written (generic : GenericName) : String :=
  generic.definition ++ "<" ++ ",".intercalate generic.arguments ++ ">"

/-- An instance that can be written: it names its generic type with the number of parameters, and
its arguments are free of blanks at their ends. -/
structure IsWritable (generic : GenericName) : Prop where
  plain : '<' ∉ generic.definition.toList
  hasMark : arityMark ∈ generic.definition.toList
  arguments_ne : generic.arguments ≠ []
  isArgument : ∀ argument ∈ generic.arguments, IsArgument argument.toList
  trimmed : ∀ argument ∈ generic.arguments, trim argument.toList = argument.toList

/-- The names that are made of plain names by writing instances. -/
inductive IsNestedName : String → Prop
  | plain {name : String} : IsPlainName name.toList → IsNestedName name
  | written {generic : GenericName} : IsPlainName generic.definition.toList →
      arityMark ∈ generic.definition.toList → generic.arguments ≠ [] →
      (∀ argument ∈ generic.arguments, IsNestedName argument) → IsNestedName generic.written

private theorem toList_written (generic : GenericName) :
    generic.written.toList = generic.definition.toList ++
      '<' :: ([','].intercalate (generic.arguments.map String.toList) ++ ['>']) := by
  simp [written, String.toList_intercalate]

/-- A written instance is read back. -/
theorem IsWritable.ofString?_written {generic : GenericName} (h : generic.IsWritable) :
    ofString? generic.written = some generic := by
  rw [ofString?, toList_written, parse?_eq_some_iff]
  refine ⟨⟨generic.definition.toList, generic.arguments.map String.toList, h.plain, ?_, ?_⟩, rfl,
    ?_⟩
  · simpa using h.arguments_ne
  · simpa using h.isArgument
  · have harguments : generic.arguments.map (fun argument => String.ofList (trim argument.toList)) =
        generic.arguments := by
      refine (List.map_congr_left fun argument hmem => ?_).trans (List.map_id _)
      rw [h.trimmed argument hmem, String.ofList_toList, id]
    simp only [Spelling.meaning, if_pos h.hasMark, List.map_map, Function.comp_def, harguments,
      String.ofList_toList]

private theorem isPiece_plain_append (h : ∀ c ∈ text, c ≠ '<' ∧ c ≠ '>' ∧ c ≠ ',')
    {rest : List Char} (hrest : IsPiece depth rest) : IsPiece depth (text ++ rest) := by
  induction text with
  | nil => exact hrest
  | cons c text ih =>
      obtain ⟨⟨hopen, hclose, hcomma⟩, htext⟩ := List.forall_mem_cons.mp h
      have hsame : depth + [c].count '<' = depth + [c].count '>' := by simp [hopen, hclose]
      exact (isPiece_cons_iff hsame).mpr ⟨fun heq => absurd heq hcomma, ih htext⟩

private theorem isPiece_bracketed (h : Balanced text) : IsPiece 0 ('<' :: (text ++ ['>'])) := by
  have hlast : Closes 1 ['>'] := closes_close_iff.mpr (closes_nil_iff.mpr rfl)
  refine (isPiece_cons_iff rfl).mpr ⟨by simp, ?_, ?_⟩
  · simpa using (closes_zero_iff.mpr h).append hlast
  · intro before after heq
    have hbefore : before <+: text := by
      have hprefix : before ++ [','] <+: text ++ ['>'] := ⟨after, by simp [heq]⟩
      rcases List.prefix_concat_iff.mp hprefix with hend | hwithin
      · exact absurd (List.append_inj' hend rfl).2 (by simp)
      · exact (List.prefix_append before [',']).trans hwithin
    have hle := h.count_le before hbefore
    omega

private theorem isArgument_of_isPlainName {name : List Char} (h : IsPlainName name) :
    IsArgument name := by
  have hpiece := isPiece_plain_append h.chars (isPiece_nil_iff.mpr (rfl : 0 = 0))
  obtain ⟨c, rest, rfl⟩ := List.exists_cons_of_ne_nil h.ne_nil
  rw [List.append_nil] at hpiece
  exact isArgument_iff.mpr ⟨hpiece, c, List.mem_cons_self, h.head c rfl⟩

theorem balanced_intercalate {pieces : List (List Char)} (h : ∀ piece ∈ pieces, Balanced piece) :
    Balanced ([','].intercalate pieces) := by
  obtain ⟨depth, hcloses, hzero⟩ := exists_closes_intercalate
    (closes_of_plain (by decide) (by decide) : Closes 0 [',']) pieces
    fun piece hpiece => ⟨0, closes_zero_iff.mpr (h piece hpiece)⟩
  obtain rfl := hzero.mpr h
  exact closes_zero_iff.mp hcloses

/-- An instance of a plain generic type can be an argument again. -/
theorem isArgument_written {generic : GenericName} (hplain : IsPlainName generic.definition.toList)
    (h : ∀ argument ∈ generic.arguments, IsArgument argument.toList) :
    IsArgument generic.written.toList ∧ trim generic.written.toList = generic.written.toList := by
  have hbalanced : ∀ piece ∈ generic.arguments.map String.toList, Balanced piece := by
    simpa using fun argument hmem => (h argument hmem).balanced
  have hpiece := isPiece_plain_append hplain.chars
    (isPiece_bracketed (balanced_intercalate hbalanced))
  obtain ⟨c, rest, hcons⟩ := List.exists_cons_of_ne_nil hplain.ne_nil
  have hc : isBlank c = false := hplain.head c (by rw [hcons]; rfl)
  rw [toList_written]
  refine ⟨isArgument_iff.mpr ⟨hpiece, c, by simp [hcons], hc⟩, trim_eq_self ?_ ?_⟩
  · simpa [hcons] using hc
  · have hlast : (generic.definition.toList ++
        '<' :: ([','].intercalate (generic.arguments.map String.toList) ++ ['>'])).getLast? =
        some '>' := by
      simp [List.getLast?_append, List.getLast?_cons]
    rw [hlast]
    simp [isBlank]

theorem IsNestedName.isArgument {name : String} (h : IsNestedName name) :
    IsArgument name.toList ∧ trim name.toList = name.toList := by
  induction h with
  | plain hname => exact ⟨isArgument_of_isPlainName hname, hname.trim_eq⟩
  | written hplain _ _ _ ih => exact isArgument_written hplain fun argument h => (ih argument h).1

/-- A name is that of an instance exactly if it is spelled as one: a text without `<`, then, in
brackets and between commas, pieces that are balanced, have their commas inside brackets and are not
blank. A written instance is read back, also if its arguments are written instances, however deep
they are nested. -/
theorem ofString?_spelled :
    (∀ (name : String) (generic : GenericName), ofString? name = some generic ↔
      ∃ spelling : Spelling, spelling.chars = name.toList ∧ spelling.meaning = generic) ∧
    (∀ generic : GenericName, generic.IsWritable → ofString? generic.written = some generic) ∧
    (∀ generic : GenericName, IsPlainName generic.definition.toList →
      arityMark ∈ generic.definition.toList → generic.arguments ≠ [] →
      (∀ argument ∈ generic.arguments, IsNestedName argument) →
        ofString? generic.written = some generic ∧ IsNestedName generic.written) := by
  refine ⟨fun name generic => parse?_eq_some_iff, fun generic h => h.ofString?_written, ?_⟩
  intro generic hplain hmark hne hnested
  have hwritable : generic.IsWritable :=
    { plain := fun h => (hplain.chars '<' h).1 rfl
      hasMark := hmark
      arguments_ne := hne
      isArgument := fun argument h => (hnested argument h).isArgument.1
      trimmed := fun argument h => (hnested argument h).isArgument.2 }
  exact ⟨hwritable.ofString?_written, .written hplain hmark hne hnested⟩

private def itemList : GenericName := ⟨"List`1", ["Item"]⟩

private def itemTable : GenericName := ⟨"Table`2", ["Key", itemList.written]⟩

/-- The instance `Table<Key,List<Item>>`, with the numbers of parameters. -/
theorem ofString?_spelled_table :
    itemTable.written = "Table`2<Key,List`1<Item>>" ∧
      ofString? itemTable.written = some itemTable := by
  have hitem : IsNestedName "Item" := .plain (isPlainName_of_all (by decide) (by decide))
  have hkey : IsNestedName "Key" := .plain (isPlainName_of_all (by decide) (by decide))
  obtain ⟨-, hlist⟩ := ofString?_spelled.2.2 itemList
    (isPlainName_of_all (by decide) (by decide)) (by decide) (by decide)
    (List.forall_mem_singleton.mpr hitem)
  obtain ⟨htable, -⟩ := ofString?_spelled.2.2 itemTable
    (isPlainName_of_all (by decide) (by decide)) (by decide) (by decide)
    (List.forall_mem_cons.mpr ⟨hkey, List.forall_mem_singleton.mpr hlist⟩)
  exact ⟨by decide, htable⟩

end XamlAssist.GenericName
