import XamlAssist.Extension.Scan
import XamlAssist.Proofs.Extension.Reading

/-!
# Scanning a markup extension and reading it

A scan looks back over the bytes before its place for the end of an unquoted value. The blanks that
it finds there are those that a reading has counted, so that both come to the same place
(`upTo_eq_reading`). No byte behind the one that is passed has a part in this.
-/

namespace XamlAssist.Extension.Scan

open Text Cursor

variable {s : Cursor} {r : Reading} {bytes other : List UInt8} {read rest : List Char} {c d : Char}
  {stop : Nat}

/-! ### What a step looks at -/

private theorem trimEnd_congr {i : Nat} (h : bytes.take (i + 1) = other.take (i + 1)) (start : Nat)
    (hstop : stop ≤ i) : trimEnd bytes start stop = trimEnd other start stop := by
  induction stop with
  | zero => rfl
  | succ stop ih =>
      rw [trimEnd, trimEnd, charAt?_eq_of_take_eq h (Nat.le_of_succ_le hstop),
        ih (Nat.le_of_succ_le hstop)]

theorem looksBack_scanner : scanner.LooksBack fun _ => True where
  inv_step _ _ _ := trivial
  step_eq bytes other s _ hbytes := by
    show step bytes s = step other s
    have htrim (start : Nat) : trimEnd bytes start s.pos = trimEnd other start s.pos :=
      trimEnd_congr hbytes start (Nat.le_refl s.pos)
    rw [step, step, charAt?_eq_of_take_eq hbytes (Nat.le_refl s.pos), htrim]

/-! ### What is found in the bytes -/

private theorem lt_of_isAsciiBlank (h : isAsciiBlank c = true) : c.toNat < 0x80 := by
  simp only [isAsciiBlank, isMarkupBlank, Bool.or_eq_true, beq_iff_eq] at h
  rcases h with (((rfl | rfl) | rfl) | rfl) | rfl <;> decide

private theorem any_charAt?_last (init rest : List Char) (d : Char) :
    (charAt? (utf8 (init ++ [d] ++ rest)) (byteLength (init ++ [d]) - 1)).any isAsciiBlank =
      isAsciiBlank d := by
  have hlast {a : Char} (ha : a.toNat < 0x80) :
      charAt? (utf8 (init ++ [d] ++ rest)) (byteLength (init ++ [d]) - 1) = some a ↔ d = a := by
    have hiff := charAt?_pred_eq_iff ha (init ++ [d]) rest
    rw [and_iff_right (byteLength_pos (by simp))] at hiff
    rw [hiff, List.getLast?_concat, Option.some.injEq]
  rw [Bool.eq_iff_iff, Option.any_eq_true]
  constructor
  · rintro ⟨a, ha, hblank⟩
    rwa [(hlast (lt_of_isAsciiBlank hblank)).mp ha]
  · intro hblank
    exact ⟨d, (hlast (lt_of_isAsciiBlank hblank)).mpr rfl, hblank⟩

/-- Looking back for blanks finds those that the text before the place ends with. -/
private theorem trimEnd_eq {start : Nat} (seen rest : List Char)
    (hstart : start ≤ byteLength seen) :
    trimEnd (utf8 (seen.reverse ++ rest)) start (byteLength seen) =
      max start (byteLength seen - (seen.takeWhile isAsciiBlank).length) := by
  induction seen generalizing rest with
  | nil =>
      obtain rfl := Nat.le_zero.mp hstart
      rfl
  | cons d seen ih =>
      have hlast := any_charAt?_last seen.reverse rest d
      rw [← List.reverse_cons, byteLength_reverse] at hlast
      obtain ⟨stop, hstop⟩ := Nat.exists_eq_succ_of_ne_zero
        (Nat.ne_of_gt (byteLength_pos (List.cons_ne_nil d seen)))
      rw [hstop, Nat.succ_sub_one] at hlast
      rw [hstop] at hstart ⊢
      rw [trimEnd, hlast, List.takeWhile_cons]
      by_cases hblank : isAsciiBlank d = true
      · have hsize := utf8Size_of_isAsciiBlank hblank
        obtain rfl : stop = byteLength seen := by
          rw [byteLength_cons] at hstop
          omega
        rw [hblank, Bool.and_true, if_pos rfl, List.length_cons]
        by_cases hlt : start < byteLength seen + 1
        · have hbefore := ih (d :: rest) (Nat.le_of_lt_succ hlt)
          rw [if_pos (decide_eq_true hlt), List.reverse_cons, List.append_assoc,
            List.singleton_append, hbefore]
          omega
        · rw [if_neg (by simpa using hlt)]
          omega
      · rw [Bool.eq_false_iff.mpr hblank, Bool.and_false, if_neg (by simp), if_neg (by simp)]
        exact (Nat.max_eq_right hstart).symm

private theorem trimEnd_eq_trimmedPos (hread : r.HasRead read) :
    trimEnd (utf8 (read ++ rest)) (r.level.argument.valueStart.getD r.pos) r.pos =
      r.trimmedPos := by
  have hstart : r.level.argument.valueStart.getD r.pos ≤ byteLength read.reverse := by
    rw [byteLength_reverse, ← hread.pos_eq]
    cases hvalue : r.level.argument.valueStart with
    | none => exact Nat.le_refl r.pos
    | some start =>
        rw [Option.getD_some, hread.pos_eq]
        exact le_of_isPlace (hread.marked.level.valueStart start hvalue)
  have htrim := trimEnd_eq read.reverse rest hstart
  rwa [List.reverse_reverse, byteLength_reverse, ← hread.pos_eq, ← hread.blanks] at htrim

/-! ### Bytes and characters -/

private theorem accept_leadChar (s : Cursor) (stop : Nat) (c : Char) :
    s.accept stop (leadChar c) = s.accept stop c := by
  have hmark {a : Char} (ha : a.toNat < 0x80) : (leadChar c = a) = (c = a) :=
    propext (leadChar_eq_iff ha)
  have hopen : (leadChar c = '{') = (c = '{') := hmark (by decide)
  have hclose : (leadChar c = '}') = (c = '}') := hmark (by decide)
  have hcomma : (leadChar c = ',') = (c = ',') := hmark (by decide)
  have hequals : (leadChar c = '=') = (c = '=') := hmark (by decide)
  have hquote : (leadChar c = '\x27') = (c = '\x27') := hmark (by decide)
  simp only [accept, readName, readValue, readArgumentName, readAfterName, readBeforeValue, hopen,
    hclose, hcomma, hequals, hquote, isAsciiBlank_leadChar]

/-- A byte that is no ASCII character changes nothing here. -/
def IsSettled (s : Cursor) : Prop :=
  match s.level.phase with
  | .outside | .name | .afterValue => True
  | .value => s.level.argument.inQuotes = true ∨ s.level.argument.valueStart.isSome = true
  | .argumentName => s.level.argument.nameStart.isSome = true
  | .afterName | .beforeValue => False

private theorem ne_of_high (hd : 0x80 ≤ d.toNat) :
    d ≠ '{' ∧ d ≠ '}' ∧ d ≠ ',' ∧ d ≠ '=' ∧ d ≠ '\x27' ∧ isAsciiBlank d = false := by
  have hne (a : Char) (ha : a.toNat < 0x80) : d ≠ a := by
    rintro rfl
    exact absurd ha (Nat.not_lt_of_le hd)
  refine ⟨hne _ (by decide), hne _ (by decide), hne _ (by decide), hne _ (by decide),
    hne _ (by decide), Bool.eq_false_iff.mpr fun hblank => ?_⟩
  exact absurd (lt_of_isAsciiBlank hblank) (Nat.not_lt_of_le hd)

private theorem some_getD {start : Option Nat} (h : start.isSome = true) (pos : Nat) :
    some (start.getD pos) = start := by
  obtain ⟨m, rfl⟩ := Option.isSome_iff_exists.mp h
  rfl

private theorem IsSettled.accept (h : IsSettled s) (hd : 0x80 ≤ d.toNat) : s.accept stop d = s := by
  obtain ⟨hopen, hclose, hcomma, hequals, hquote, hblank⟩ := ne_of_high hd
  cases hphase : s.level.phase with
  | outside | name | afterValue =>
      simp [Cursor.accept, hphase, readName, hopen, hclose, hcomma, hblank]
  | value =>
      rw [IsSettled, hphase] at h
      cases hquotes : s.level.argument.inQuotes with
      | true => simp [Cursor.accept, hphase, readValue, hquotes, hquote]
      | false =>
          have hpass : s.accept stop d = s.startValue := by
            simp [Cursor.accept, hphase, readValue, hquotes, hopen, hclose, hcomma, hequals, hquote,
              hblank]
          rw [hpass, startValue, some_getD (h.resolve_left (by simp [hquotes]))]
  | argumentName =>
      rw [IsSettled, hphase] at h
      have hpass : s.accept stop d =
          { s with level.argument.nameStart := some (s.level.argument.nameStart.getD s.pos) } := by
        simp [Cursor.accept, hphase, readArgumentName, hopen, hclose, hcomma, hequals, hquote,
          hblank]
      rw [hpass, some_getD h]
  | afterName | beforeValue =>
      rw [IsSettled, hphase] at h
      exact h.elim

private theorem isSettled_pass (s : Cursor) (stop : Nat) (hd : 0x80 ≤ d.toNat) :
    IsSettled (s.accept stop d) := by
  by_cases hsettled : IsSettled s
  · rwa [hsettled.accept hd]
  · obtain ⟨hopen, hclose, hcomma, hequals, hquote, hblank⟩ := ne_of_high hd
    cases hphase : s.level.phase with
    | outside | name | afterValue => simp [IsSettled, hphase] at hsettled
    | value =>
        simp only [IsSettled, hphase, not_or, Bool.not_eq_true] at hsettled
        simp [Cursor.accept, hphase, readValue, hsettled.1, hopen, hclose, hcomma, hequals, hquote,
          hblank, startValue, IsSettled]
    | argumentName =>
        simp [Cursor.accept, hphase, readArgumentName, hopen, hclose, hcomma, hequals, hquote,
          hblank, IsSettled]
    | afterName =>
        simp [Cursor.accept, hphase, readAfterName, hclose, hcomma, hequals, hblank, IsSettled]
    | beforeValue =>
        simp [Cursor.accept, hphase, readBeforeValue, hopen, hclose, hcomma, hquote, hblank,
          IsSettled]

private theorem steps_of_isSettled {count : Nat} (h : s.literal = true ∨ IsSettled s)
    (hbytes : ∀ k < count, ∃ d, charAt? bytes (s.pos + k) = some d ∧ 0x80 ≤ d.toNat) :
    scanner.steps bytes count s = { s with pos := s.pos + count } := by
  induction count generalizing s with
  | zero => rfl
  | succ count ih =>
      obtain ⟨d, hbyte, hd⟩ := hbytes 0 (Nat.succ_pos count)
      have hstep : scanner.step bytes s = { s with pos := s.pos + 1 } := by
        show step bytes s = _
        rw [Nat.add_zero] at hbyte
        rw [step, hbyte]
        rcases h with hliteral | hsettled
        · simp only [hliteral, if_true]
        · simp only [hsettled.accept hd, ite_self]
      rw [Scanner.steps_succ, hstep]
      refine (ih (s := { s with pos := s.pos + 1 }) h fun k hk => ?_).trans ?_
      · obtain ⟨e, hnext, he⟩ := hbytes (k + 1) (Nat.succ_lt_succ hk)
        refine ⟨e, ?_, he⟩
        rwa [Nat.add_right_comm, Nat.add_assoc]
      · simp only [Nat.add_assoc, Nat.add_comm 1 count]

/-! ### Runs -/

/-- The bytes of a character do what the character does. -/
private theorem steps_char (hread : r.HasRead read) (c : Char) (rest : List Char) :
    scanner.steps (utf8 (read ++ c :: rest)) c.utf8Size r.toCursor = (r.step c).toCursor := by
  have hlead := charAt?_lead read rest c
  rw [← hread.pos_eq] at hlead
  have hfirst : scanner.step (utf8 (read ++ c :: rest)) r.toCursor =
      { (if r.literal then r.toCursor else r.react c) with pos := r.pos + 1 } := by
    show step _ r.toCursor = _
    simp only [step, hlead, trimEnd_eq_trimmedPos hread, accept_leadChar, Reading.react]
  obtain ⟨count, hcount⟩ := Nat.exists_eq_succ_of_ne_zero (Nat.ne_of_gt c.utf8Size_pos)
  rw [Reading.step, hcount, Scanner.steps_succ, hfirst]
  by_cases hc : c.toNat < 0x80
  · obtain rfl : count = 0 := by
      rw [utf8Size_of_lt hc] at hcount
      omega
    rfl
  · have hc := Nat.le_of_not_lt hc
    refine (steps_of_isSettled ?_ fun k hk => ?_).trans ?_
    · cases hliteral : r.literal with
      | true => exact .inl hliteral
      | false =>
          have hsettled := isSettled_pass r.toCursor r.trimmedPos (le_leadChar hc)
          rw [accept_leadChar] at hsettled
          exact .inr hsettled
    · have hhigh := exists_charAt?_high read rest (k := k + 1) (by omega) hc
      rwa [← hread.pos_eq, Nat.add_comm k 1, ← Nat.add_assoc] at hhigh
    · simp only [Nat.add_assoc, Nat.add_comm 1 count]

private theorem steps_text (hread : r.HasRead read) (more rest : List Char) :
    scanner.steps (utf8 (read ++ (more ++ rest))) (byteLength more) r.toCursor =
      (r.readAll more).toCursor := by
  induction more generalizing r read with
  | nil => rfl
  | cons c more ih =>
      have hrest := ih (hread.step c)
      rw [List.append_assoc, List.singleton_append] at hrest
      rw [byteLength_cons, Scanner.steps_add, Reading.readAll_cons, ← hrest]
      exact congrArg _ (steps_char hread c (more ++ rest))

/-- At every offset a scan comes to the place that a reading comes to. -/
theorem upTo_eq_reading (text : List Char) (offset : Nat) :
    upTo text offset = (Reading.upTo text offset).toCursor := by
  obtain ⟨rest, htext, -⟩ := exists_takeBytes_append text offset
  have hsteps := steps_text (Reading.hasRead_readAll []) (takeBytes text offset) rest
  rw [List.nil_append, ← htext, byteLength_takeBytes] at hsteps
  rw [Reading.upTo_eq_readAll, ← Reading.readAll_nil ({} : Reading), ← hsteps]
  rfl

end XamlAssist.Extension.Scan
