import XamlAssist.Proofs.GenericSpelling

/-!
# How deep the arguments of an instance nest

The nesting of a name is counted over its characters, in one pass that knows neither arguments nor
blanks. Main statement: `max?_nesting_arguments`, it is still one more than the nesting of the
deepest argument.
-/

namespace XamlAssist.GenericName

open Text

variable {depth : Nat} {text rest : List Char}

/-! ### Texts that open nothing -/

private theorem nestingFrom_of_notMem (h : '<' ∉ text) : nestingFrom depth text = 0 := by
  induction text generalizing depth with
  | nil => rfl
  | cons c text ih =>
      obtain ⟨hc, htext⟩ := List.ne_and_not_mem_of_not_mem_cons h
      rw [nestingFrom, if_neg hc.symm, ih htext, ih htext, ite_self]

private theorem nestingFrom_append_of_notMem (h : '<' ∉ rest) :
    nestingFrom depth (text ++ rest) = nestingFrom depth text := by
  induction text generalizing depth with
  | nil => exact nestingFrom_of_notMem h
  | cons c text ih => simp only [List.cons_append, nestingFrom, ih]

/-- Outside all brackets a stray `>` closes nothing, so that a text in front makes no difference
either. -/
theorem nestingFrom_zero_append (h : '<' ∉ text) :
    nestingFrom 0 (text ++ rest) = nestingFrom 0 rest := by
  induction text with
  | nil => rfl
  | cons c text ih =>
      obtain ⟨hc, htext⟩ := List.ne_and_not_mem_of_not_mem_cons h
      rw [List.cons_append, nestingFrom, if_neg hc.symm, Nat.zero_sub, ih htext, ite_self]

theorem nestingFrom_trim (text : List Char) :
    nestingFrom 0 (trim text) = nestingFrom 0 text := by
  have hblank {blanks : List Char} (h : ∀ c ∈ blanks, isBlank c = true) : '<' ∉ blanks :=
    fun hmem => absurd (h '<' hmem) (by decide)
  obtain ⟨lead, trail, heq, hlead, htrail⟩ := exists_append_trim text
  calc nestingFrom 0 (trim text)
      = nestingFrom 0 (trim text ++ trail) := (nestingFrom_append_of_notMem (hblank htrail)).symm
    _ = nestingFrom 0 (lead ++ (trim text ++ trail)) :=
        (nestingFrom_zero_append (hblank hlead)).symm
    _ = nestingFrom 0 text := by rw [← heq]

/-! ### Texts that close what they open -/

private theorem nestingFrom_append_of_closes (h : Closes depth text) :
    nestingFrom depth (text ++ rest) = max (nestingFrom depth text) (nestingFrom 0 rest) := by
  induction h using Closes.induct with
  | nil => exact (Nat.zero_max _).symm
  | opens _ ih => rw [List.cons_append, nestingFrom_open, nestingFrom_open, ih, Nat.max_assoc]
  | closes _ ih => exact ih
  | other hopen hclose _ ih =>
      rw [List.cons_append, nestingFrom_other hopen hclose, nestingFrom_other hopen hclose, ih]

private theorem nestingFrom_succ_of_closes (h : Closes depth text) :
    max (depth + 1) (nestingFrom (depth + 1) text) = 1 + max depth (nestingFrom depth text) := by
  induction h using Closes.induct with
  | nil => rfl
  | opens _ ih =>
      rw [nestingFrom_open, nestingFrom_open]
      omega
  | @closes depth text _ ih =>
      rw [nestingFrom_close, nestingFrom_close]
      omega
  | other hopen hclose _ ih =>
      rw [nestingFrom_other hopen hclose, nestingFrom_other hopen hclose, ih]

private theorem nestingFrom_bracketed (h : Balanced text) :
    nestingFrom 0 ('<' :: (text ++ ['>'])) = 1 + nestingFrom 0 text := by
  have hdeeper := nestingFrom_succ_of_closes (closes_zero_iff.mpr h)
  rw [Nat.zero_add, Nat.zero_max] at hdeeper
  rw [nestingFrom_open, nestingFrom_append_of_notMem (by decide), Nat.zero_add, hdeeper]

/-- Balanced pieces with commas between them nest like the deepest of them. -/
theorem max?_nestingFrom_pieces {pieces : List (List Char)} (hne : pieces ≠ [])
    (h : ∀ piece ∈ pieces, Balanced piece) :
    (pieces.map (nestingFrom 0)).max? = some (nestingFrom 0 ([','].intercalate pieces)) := by
  induction pieces with
  | nil => exact absurd rfl hne
  | cons piece pieces ih =>
      obtain ⟨hpiece, hpieces⟩ := List.forall_mem_cons.mp h
      rw [List.map_cons, List.max?_cons]
      cases pieces with
      | nil => simp
      | cons second others =>
          rw [ih (List.cons_ne_nil _ _) hpieces, List.intercalate_cons_cons, List.append_assoc,
            nestingFrom_append_of_closes (closes_zero_iff.mpr hpiece),
            nestingFrom_zero_append (by decide)]
          rfl

/-! ### Instances -/

/-- An instance nests one level deeper than its deepest argument. -/
theorem max?_nesting_arguments {name : String} {generic : GenericName}
    (h : ofString? name = some generic) :
    (generic.arguments.map nesting).max?.map (1 + ·) = some (nesting name) := by
  obtain ⟨spelling, hchars, rfl⟩ := parse?_eq_some_iff.mp h
  have hbalanced : ∀ piece ∈ spelling.pieces, Balanced piece :=
    fun piece hpiece => (spelling.isArgument piece hpiece).balanced
  have harguments : spelling.meaning.arguments.map nesting =
      spelling.pieces.map (nestingFrom 0) := by
    rw [Spelling.meaning, List.map_map]
    refine List.map_congr_left fun piece _ => ?_
    rw [Function.comp_apply, nesting, String.toList_ofList, nestingFrom_trim]
  have hname : nesting name = 1 + nestingFrom 0 ([','].intercalate spelling.pieces) := by
    rw [nesting, ← hchars, Spelling.chars, nestingFrom_zero_append spelling.plain,
      nestingFrom_bracketed (balanced_intercalate hbalanced)]
  rw [harguments, max?_nestingFrom_pieces spelling.pieces_ne hbalanced, Option.map_some, hname]

theorem nesting_lt_of_mem_arguments {name : String} {generic : GenericName}
    (h : ofString? name = some generic) {argument : String}
    (hmem : argument ∈ generic.arguments) : nesting argument < nesting name := by
  obtain ⟨deepest, hdeepest, hname⟩ := Option.map_eq_some_iff.mp (max?_nesting_arguments h)
  have hle := (List.max?_eq_some_iff.mp hdeepest).2 _ (List.mem_map_of_mem hmem)
  omega

end XamlAssist.GenericName
