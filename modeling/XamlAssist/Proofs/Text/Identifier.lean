import XamlAssist.Text.Blank
import XamlAssist.Text.Identifier

/-!
# Which characters are in no name

Readers of selectors rely on little of the tables of identifier characters: what begins an
identifier may also continue one, and no blank or delimiter may, so that a name ends where one of
them follows. The tables of Unicode have these properties.
-/

namespace XamlAssist.Text

/-- The delimiters of selectors. -/
def selectorDelimiters : List Char :=
  [':', '.', '#', '^', '[', ']', '/', '>', ',', '(', ')', '|', '=']

/-- Tables by which an identifier goes on from its first character and ends before a blank or a
delimiter. -/
class LawfulIdentifierTables [IdentifierTables] : Prop where
  isIdentifierContinue_of_start {c : Char} :
    isIdentifierStart c = true → isIdentifierContinue c = true
  isIdentifierContinue_of_isBlank {c : Char} : isBlank c = true → isIdentifierContinue c = false
  isIdentifierContinue_of_delimiter {c : Char} :
    c ∈ selectorDelimiters → isIdentifierContinue c = false

export LawfulIdentifierTables (isIdentifierContinue_of_start isIdentifierContinue_of_isBlank
  isIdentifierContinue_of_delimiter)

theorem isBlank_of_delimiter {c : Char} (h : c ∈ selectorDelimiters) : isBlank c = false := by
  have hall : selectorDelimiters.all (fun d => !isBlank d) = true := by decide +kernel
  simpa using List.all_eq_true.mp hall c h

section Lawful

variable [IdentifierTables] {c : Char}

theorem isIdentifierContinue_of_styleClass (h : isStyleClassChar c = false) :
    isIdentifierContinue c = false := by
  rw [isStyleClassChar, Bool.or_eq_false_iff] at h
  exact h.2

private theorem isStyleClassChar_of_continue (hdash : c ≠ '-')
    (h : isIdentifierContinue c = false) : isStyleClassChar c = false := by
  simp [isStyleClassChar, hdash, h]

variable [LawfulIdentifierTables]

theorem isStyleClassChar_of_isBlank (h : isBlank c = true) : isStyleClassChar c = false := by
  refine isStyleClassChar_of_continue ?_ (isIdentifierContinue_of_isBlank h)
  rintro rfl
  exact absurd h (by decide)

theorem isStyleClassChar_of_delimiter (h : c ∈ selectorDelimiters) :
    isStyleClassChar c = false := by
  refine isStyleClassChar_of_continue ?_ (isIdentifierContinue_of_delimiter h)
  rintro rfl
  exact absurd h (by decide)

private theorem isIdentifierStart_of_continue (h : isIdentifierContinue c = false) :
    isIdentifierStart c = false := by
  rw [Bool.eq_false_iff] at h ⊢
  exact fun hstart => h (isIdentifierContinue_of_start hstart)

theorem isIdentifierStart_of_delimiter (h : c ∈ selectorDelimiters) :
    isIdentifierStart c = false :=
  isIdentifierStart_of_continue (isIdentifierContinue_of_delimiter h)

theorem isBlank_of_identifierStart (h : isIdentifierStart c = true) : isBlank c = false := by
  rw [Bool.eq_false_iff]
  intro hblank
  have hcontinue := isIdentifierContinue_of_isBlank hblank
  rw [isIdentifierContinue_of_start h] at hcontinue
  exact Bool.noConfusion hcontinue

end Lawful

/-! ### The tables of Unicode -/

/-- The code points with the property `White_Space`. -/
private def blankPoints : List Nat :=
  [0x9, 0xA, 0xB, 0xC, 0xD, 0x20, 0x85, 0xA0, 0x1680, 0x2000, 0x2001, 0x2002, 0x2003, 0x2004,
    0x2005, 0x2006, 0x2007, 0x2008, 0x2009, 0x200A, 0x2028, 0x2029, 0x202F, 0x205F, 0x3000]

private theorem mem_blankPoints {c : Char} (h : isBlank c = true) : c.toNat ∈ blankPoints := by
  simp only [isBlank, Bool.or_eq_true, Bool.and_eq_true, decide_eq_true_eq, beq_iff_eq] at h
  simp only [blankPoints, List.mem_cons, List.not_mem_nil, or_false]
  omega

private theorem unicode_continue_of_start {c : Char} (h : isIdentifierStart c = true) :
    isIdentifierContinue c = true := by
  simp only [isIdentifierStart, Bool.or_eq_true, beq_iff_eq] at h
  rcases h with rfl | h
  · decide +kernel
  · exact Bool.or_eq_true_iff.mpr (.inl h)

private theorem unicode_continue_of_isBlank {c : Char} (h : isBlank c = true) :
    isIdentifierContinue c = false := by
  have hall : ∀ n ∈ blankPoints,
      (inRanges n identifierStartRanges || inRanges n identifierExtendRanges) = false := by
    decide +kernel
  exact hall c.toNat (mem_blankPoints h)

private theorem unicode_continue_of_delimiter {c : Char} (h : c ∈ selectorDelimiters) :
    isIdentifierContinue c = false := by
  have hall : selectorDelimiters.all (fun d => !isIdentifierContinue d) = true := by
    decide +kernel
  simpa using List.all_eq_true.mp hall c h

instance : LawfulIdentifierTables where
  isIdentifierContinue_of_start := unicode_continue_of_start
  isIdentifierContinue_of_isBlank := unicode_continue_of_isBlank
  isIdentifierContinue_of_delimiter := unicode_continue_of_delimiter

end XamlAssist.Text
