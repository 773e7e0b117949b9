import Mathlib.Data.List.Induction
import XamlAssist.Proofs.Extension.Coherence
import XamlAssist.Proofs.Extension.WellFormed

/-!
# Where the rest of a value becomes plain text

Empty brackets make the rest of a value plain text. They need not stand at its start: every
extension that opens outside all others counts, and blanks inside its brackets do not. Main
statement: `literal_upTo_iff`.
-/

namespace XamlAssist.Extension.Reading

open Text Cursor

/-- The reading is outside any extension. -/
structure IsOutside (r : Reading) : Prop where
  literal : r.literal = false
  phase : r.level.phase = .outside

/-- The reading is inside an extension with no other around it, before the name. -/
structure AtStart (r : Reading) : Prop where
  literal : r.literal = false
  phase : r.level.phase = .name
  nameStart : r.level.nameStart = r.pos
  outer : r.outer = []

/-- In a text that has been read, empty brackets stand behind `before`, outside any other
extension. -/
structure HasEmptyBrackets (read before blanks : List Char) : Prop where
  stands : before ++ '{' :: (blanks ++ ['}']) <+: read
  blank : ∀ c ∈ blanks, isAsciiBlank c = true
  outside : (({} : Reading).readAll before).IsOutside

/-- The texts of plain characters and well-formed extensions. -/
inductive LeadsOutside : List Char → Prop
  | nil : LeadsOutside []
  | plain {before : List Char} {c : Char} : LeadsOutside before → c ≠ '{' →
      LeadsOutside (before ++ [c])
  | ext {before : List Char} (ext : Ext) : LeadsOutside before → LeadsOutside (before ++ ext.chars)

/-! ### One character -/

variable {r : Reading} {c : Char}

private theorem close_literal (r : Cursor) : r.close.literal = r.literal := by
  unfold close
  split <;> rfl

private theorem literal_react_of_ne (h : r.level.phase ≠ .name) :
    (r.react c).literal = r.literal := by
  cases hphase : r.level.phase with
  | name => exact absurd hphase h
  | outside | afterValue | argumentName | afterName | beforeValue | value =>
      simp [react, accept, hphase, readValue, readArgumentName, readAfterName, readBeforeValue,
        apply_ite Cursor.literal, close_literal, moveTo, endValue, nextArgument, openNested,
        openQuote, startValue, nameFromValue]

private theorem literal_readName (r : Cursor) (c : Char) :
    (r.readName c).literal =
      (r.literal || (c = '}' && r.pos == r.level.nameStart && r.outer.isEmpty)) := by
  unfold readName
  dsimp only
  split
  · next h => simp [h]
  · next h =>
      rw [Bool.eq_false_iff.mpr h, Bool.or_false]
      simp [apply_ite Cursor.literal, close_literal, moveTo, endName, nextArgument]

theorem literal_step_iff :
    (r.step c).literal = true ↔ r.literal = true ∨ (c = '}' ∧ r.AtStart) := by
  unfold step
  cases hliteral : r.literal with
  | true => simp [hliteral]
  | false =>
      rw [if_neg (by simp), or_iff_right (by simp)]
      by_cases hphase : r.level.phase = .name
      · have hreact : (r.react c).literal = (r.readName c).literal := by
          simp [react, accept, hphase]
        rw [hreact, literal_readName, hliteral, Bool.false_or]
        constructor
        · intro h
          simp only [Bool.and_eq_true, decide_eq_true_eq, beq_iff_eq, List.isEmpty_iff] at h
          exact ⟨h.1.1, hliteral, hphase, h.1.2.symm, h.2⟩
        · rintro ⟨hc, hstart⟩
          simp [hc, hstart.nameStart, hstart.outer]
      · rw [literal_react_of_ne hphase, hliteral]
        exact ⟨fun h => absurd h (by simp), fun h => absurd h.2.phase hphase⟩

private theorem phase_close (r : Cursor) : r.close.level.phase ≠ .name := by
  unfold close
  split <;> simp [moveTo]

/-- Behind its name, an extension comes to a name again only by way of a nested extension. -/
theorem outer_ne_nil_of_phase_react (houtside : r.level.phase ≠ .outside)
    (hname : r.level.phase ≠ .name) (h : (r.react c).level.phase = .name) :
    (r.react c).outer ≠ [] := by
  revert h
  cases hphase : r.level.phase with
  | outside => exact absurd hphase houtside
  | name => exact absurd hphase hname
  | afterValue | argumentName | afterName | beforeValue | value =>
      simp only [react, accept, hphase, readValue, readArgumentName, readAfterName, readBeforeValue]
      repeat' split
      all_goals
        simp [phase_close, nextArgument, openNested, openQuote, startValue, nameFromValue, moveTo,
          hphase]

private theorem readName_before_name (hphase : (r.readName c).level.phase = .name)
    (hname : (r.readName c).level.nameStart = r.pos + c.utf8Size)
    (hstart : r.level.nameStart ≤ r.pos) :
    isAsciiBlank c = true ∧ r.level.nameStart = r.pos := by
  have hsize := c.utf8Size_pos
  unfold readName at hphase hname
  dsimp only at hphase hname
  split at hphase
  · exact absurd hphase (by simp [moveTo])
  rw [if_neg ‹_›] at hname
  split at hphase
  · next hblank =>
      split at hphase
      · next hhere => exact ⟨hblank, (beq_iff_eq.mp hhere).symm⟩
      · exact absurd hphase (by simp [moveTo])
  rw [if_neg ‹_›] at hname
  split at hphase
  · exact absurd hphase (phase_close _)
  rw [if_neg ‹_›] at hname
  split at hphase
  · exact absurd hphase (by simp [nextArgument])
  · rw [if_neg ‹_›] at hname
    omega

/-- An extension with no other around it starts at a `{` outside, and goes on to its name over
blanks. -/
theorem atStart_step_iff (hstart : r.level.nameStart ≤ r.pos)
    (houtside : r.level.phase = .outside → r.outer = []) :
    (r.step c).AtStart ↔ (c = '{' ∧ r.IsOutside) ∨ (isAsciiBlank c = true ∧ r.AtStart) := by
  constructor
  · rintro ⟨hliteral, hphase, hname, houter⟩
    have hbefore : r.literal = false := by
      rw [← Bool.not_eq_true, literal_step_iff, not_or, Bool.not_eq_true] at hliteral
      exact hliteral.1
    simp only [step, hbefore, Bool.false_eq_true, if_false] at hphase hname houter
    by_cases hout : r.level.phase = .outside
    · left
      by_cases hc : c = '{'
      · exact ⟨hc, hbefore, hout⟩
      · simp [react, accept, hout, hc] at hphase
    by_cases hin : r.level.phase = .name
    · right
      have hreact : r.react c = r.readName c := by simp [react, accept, hin]
      rw [hreact] at hphase hname houter
      obtain ⟨hblank, hhere⟩ := readName_before_name hphase hname hstart
      have hclose : c ≠ '}' := by
        rintro rfl
        exact absurd hblank (by decide)
      refine ⟨hblank, hbefore, hin, hhere, ?_⟩
      simpa [readName, hclose, hblank, hhere] using houter
    · exact absurd houter (outer_ne_nil_of_phase_react hout hin hphase)
  · rintro (⟨rfl, hliteral, hphase⟩ | ⟨hblank, hliteral, hphase, hname, houter⟩)
    · have hstep : r.step '{' =
          { r with
            level := { phase := .name, nameStart := r.pos + 1 }
            pos := r.pos + 1
            blanks := 0 } := by
        simp [step, hliteral, react, accept, hphase, houtside hphase, isAsciiBlank, isMarkupBlank]
        rfl
      rw [hstep]
      exact ⟨hliteral, rfl, rfl, houtside hphase⟩
    · have hclose : c ≠ '}' := by
        rintro rfl
        exact absurd hblank (by decide)
      have hsize := utf8Size_of_isAsciiBlank hblank
      constructor <;>
        simp [step, hliteral, react, accept, hphase, readName, hclose, hblank, hname, houter, hsize]

/-! ### Runs -/

private theorem atStart_readAll_iff (text : List Char) :
    (({} : Reading).readAll text).AtStart ↔
      ∃ before blanks, text = before ++ '{' :: blanks ∧ (∀ c ∈ blanks, isAsciiBlank c = true) ∧
        (({} : Reading).readAll before).IsOutside := by
  induction text using List.reverseRecOn with
  | nil =>
      constructor
      · intro h
        exact absurd h.phase (by simp)
      · rintro ⟨before, blanks, htext, -⟩
        exact absurd htext (by simp)
  | append_singleton text c ih =>
      have hstart := (hasRead_readAll text).marked_le.level.nameStart
      rw [readAll_append, readAll_cons, readAll_nil,
        atStart_step_iff hstart (coherent_readAll text).outside, ih]
      constructor
      · rintro (⟨rfl, houtside⟩ | ⟨hblank, before, blanks, rfl, hblanks, houtside⟩)
        · exact ⟨text, [], rfl, by simp, houtside⟩
        · refine ⟨before, blanks ++ [c], by simp, ?_, houtside⟩
          exact List.forall_mem_append.mpr ⟨hblanks, List.forall_mem_singleton.mpr hblank⟩
      · rintro ⟨before, blanks, htext, hblanks, houtside⟩
        rcases List.eq_nil_or_concat blanks with rfl | ⟨others, last, rfl⟩
        · obtain ⟨rfl, hc⟩ := List.append_inj' htext rfl
          exact .inl ⟨(List.cons.inj hc).1, houtside⟩
        · rw [List.concat_eq_append, ← List.cons_append, ← List.append_assoc] at htext
          obtain ⟨rfl, hc⟩ := List.append_inj' htext rfl
          obtain rfl := (List.cons.inj hc).1
          rw [List.concat_eq_append] at hblanks
          obtain ⟨hothers, hlast⟩ := List.forall_mem_append.mp hblanks
          exact .inr ⟨hlast c (by simp), before, others, rfl, hothers, houtside⟩

/-- The rest is plain text exactly if empty brackets were met outside all extensions. -/
theorem literal_readAll_iff (text : List Char) :
    (({} : Reading).readAll text).literal = true ↔
      ∃ before blanks, HasEmptyBrackets text before blanks := by
  induction text using List.reverseRecOn with
  | nil =>
      constructor
      · intro h
        exact absurd h (by simp)
      · rintro ⟨before, blanks, h⟩
        exact absurd (List.prefix_nil.mp h.stands) (by simp)
  | append_singleton text c ih =>
      rw [readAll_append, readAll_cons, readAll_nil, literal_step_iff, ih, atStart_readAll_iff]
      constructor
      · rintro (⟨before, blanks, h⟩ | ⟨rfl, before, blanks, rfl, hblanks, houtside⟩)
        · exact ⟨before, blanks, h.stands.trans (List.prefix_append _ _), h.blank, h.outside⟩
        · exact ⟨before, blanks, by simp, hblanks, houtside⟩
      · rintro ⟨before, blanks, h⟩
        rcases List.prefix_concat_iff.mp h.stands with heq | hwithin
        · rw [← List.cons_append, ← List.append_assoc] at heq
          obtain ⟨rfl, hc⟩ := List.append_inj' heq rfl
          exact .inr ⟨(List.cons.inj hc).1.symm, before, blanks, rfl, h.blank, h.outside⟩
        · exact .inl ⟨before, blanks, hwithin, h.blank, h.outside⟩

private theorem hasEmptyBrackets_nil_iff {text : List Char} {offset : Nat} :
    HasEmptyBrackets (takeBytes text offset) [] [] ↔
      ['{', '}'] <+: text ∧ 2 ≤ floorOffset text offset := by
  constructor
  · rintro ⟨hstands, -, -⟩
    refine ⟨hstands.trans (takeBytes_isPrefix text offset), ?_⟩
    obtain ⟨rest, hrest⟩ := hstands
    have hlength := byteLength_takeBytes text offset
    rw [← hrest, byteLength_append] at hlength
    have htwo : byteLength ([] ++ '{' :: ([] ++ ['}'])) = 2 := rfl
    omega
  · rintro ⟨⟨rest, rfl⟩, htwo⟩
    have hle : byteLength ['{', '}'] ≤ offset :=
      Nat.le_trans htwo (floorOffset_le _ offset)
    refine ⟨?_, by simp, rfl, rfl⟩
    rw [takeBytes_append_of_le hle]
    exact List.prefix_append _ _

/-! ### Texts that lead outside -/

theorem IsOutside.plain (h : r.IsOutside) (hc : c ≠ '{') : (r.step c).IsOutside := by
  constructor <;> simp [step, h.literal, react, accept, h.phase, hc]

theorem IsOutside.inName (h : r.IsOutside) (houter : r.outer = []) :
    (r.step '{').InName (r.step '{').pos [] := by
  constructor
  · simp [step, h.literal, react, accept, h.phase, houter]
  · simp [step, h.literal, react, accept, h.phase, houter]
    rfl
  · simp [step, h.literal, react, accept, h.phase, houter]

private theorem LeadsOutside.isOutside {before : List Char} (h : LeadsOutside before) :
    (({} : Reading).readAll before).IsOutside := by
  induction h with
  | nil => exact ⟨rfl, rfl⟩
  | plain _ hc ih =>
      rw [readAll_append]
      exact ih.plain hc
  | @ext before ext _ ih =>
      have hname := ih.inName ((coherent_readAll before).outside ih.phase)
      have hleaves := leaves_ext ext hname rfl
      rw [readAll_append]
      exact ⟨hleaves.literal, hleaves.place⟩

/-- The rest of a value is plain text if the value starts with `{}` and both characters are read. It
is so in one further case: the brackets of an extension that opens outside all others enclose blanks
alone, and something stands before the brackets or between them. In particular this is the case
behind any plain text and well-formed extensions. -/
theorem literal_upTo_iff (text : List Char) (offset : Nat) :
    ((upTo text offset).literal = true ↔
      (['{', '}'] <+: text ∧ 2 ≤ floorOffset text offset) ∨
        ∃ before blanks, (before ≠ [] ∨ blanks ≠ []) ∧
          HasEmptyBrackets (takeBytes text offset) before blanks) ∧
    ∀ before blanks, LeadsOutside before → (∀ c ∈ blanks, isAsciiBlank c = true) →
      before ++ '{' :: (blanks ++ ['}']) <+: takeBytes text offset →
        (upTo text offset).literal = true := by
  rw [upTo_eq_readAll, literal_readAll_iff, ← hasEmptyBrackets_nil_iff]
  refine ⟨?_, fun before blanks hbefore hblanks hstands =>
    ⟨before, blanks, hstands, hblanks, hbefore.isOutside⟩⟩
  constructor
  · rintro ⟨before, blanks, h⟩
    by_cases hnil : before = [] ∧ blanks = []
    · obtain ⟨rfl, rfl⟩ := hnil
      exact .inl h
    · exact .inr ⟨before, blanks, Decidable.not_and_iff_or_not.mp hnil, h⟩
  · rintro (h | ⟨before, blanks, -, h⟩)
    · exact ⟨[], [], h⟩
    · exact ⟨before, blanks, h⟩

section Example

private theorem isTokenChar_letterX : isTokenChar 'X' = true := by decide

private theorem blank_of_mem_nil : ∀ c ∈ ([] : List Char), isAsciiBlank c = true := by simp

private def letterX : Token :=
  ⟨['X'], List.cons_ne_nil _ _, List.forall_mem_singleton.mpr isTokenChar_letterX⟩

/-- The extension `{X}`. -/
private def bareX : Ext := .bare ⟨[], blank_of_mem_nil⟩ letterX ⟨[], blank_of_mem_nil⟩

/-- The value `{X}{ }`. -/
theorem literal_upTo_iff_behindExtension :
    (upTo ['{', 'X', '}', '{', ' ', '}'] 6).literal = true :=
  (literal_upTo_iff ['{', 'X', '}', '{', ' ', '}'] 6).2 _ [' '] (.ext bareX .nil)
    (List.forall_mem_singleton.mpr rfl) (by decide)

end Example

/-- In `a{}` the brackets do not stand at the start. -/
theorem literal_upTo_behindText :
    ¬ ((upTo ['a', '{', '}'] 3).literal = true ↔
      ['{', '}'] <+: ['a', '{', '}'] ∧ 2 ≤ floorOffset ['a', '{', '}'] 3) := by
  decide

end XamlAssist.Extension.Reading
