import XamlAssist.Extension.Reading
import XamlAssist.Proofs.Text.Reader

/-!
# What one character does to a reading

A character works on the current level, sets it aside for a nested one or brings back the level
around it. Every offset that a reading holds is a place of the text read so far.
-/

namespace XamlAssist.Extension

open Text

theorem utf8Size_of_isAsciiBlank {c : Char} (h : isAsciiBlank c = true) : c.utf8Size = 1 := by
  simp only [isAsciiBlank, isMarkupBlank, Bool.or_eq_true, beq_iff_eq] at h
  rcases h with (((rfl | rfl) | rfl) | rfl) | rfl <;> rfl

/-- `P` holds of every offset that the level holds. -/
structure Level.Marked (P : Nat → Prop) (level : Level) : Prop where
  nameStart : P level.nameStart
  nameStop : ∀ m, level.nameStop = some m → P m
  argumentStart : ∀ m, level.argument.nameStart = some m → P m
  argumentStop : ∀ m, level.argument.nameStop = some m → P m
  valueStart : ∀ m, level.argument.valueStart = some m → P m
  valueStop : ∀ m, level.argument.valueStop = some m → P m

theorem Level.Marked.mono {P Q : Nat → Prop} {level : Level} (h : level.Marked P)
    (hPQ : ∀ m, P m → Q m) : level.Marked Q where
  nameStart := hPQ _ h.nameStart
  nameStop m hm := hPQ m (h.nameStop m hm)
  argumentStart m hm := hPQ m (h.argumentStart m hm)
  argumentStop m hm := hPQ m (h.argumentStop m hm)
  valueStart m hm := hPQ m (h.valueStart m hm)
  valueStop m hm := hPQ m (h.valueStop m hm)

theorem Level.Marked.forget {P : Nat → Prop} {level : Level} (h : level.Marked P) (phase : Phase)
    (commas : Nat) : Level.Marked P ⟨phase, level.nameStart, level.nameStop, {}, commas⟩ := by
  constructor <;> simp [h.nameStart]
  exact h.nameStop

/-- The level as it goes on behind the `}` of a nested extension at `pos`. -/
def Level.goOnAt (level : Level) (pos : Nat) : Level :=
  { level with phase := .afterValue, argument.valueStop := some (pos + 1) }

namespace Reading

@[simp] theorem readAll_nil (r : Reading) : r.readAll [] = r := rfl

@[simp] theorem readAll_cons (r : Reading) (c : Char) (cs : List Char) :
    r.readAll (c :: cs) = (r.step c).readAll cs := rfl

@[simp] theorem readAll_append (r : Reading) (s t : List Char) :
    r.readAll (s ++ t) = (r.readAll s).readAll t :=
  reader.readAll_append r s t

theorem step_pos (r : Reading) (c : Char) : (r.step c).pos = r.pos + c.utf8Size := rfl

theorem readAll_pos (r : Reading) (s : List Char) : (r.readAll s).pos = r.pos + byteLength s :=
  reader.pos_readAll r s

theorem readUpTo_cons (r : Reading) (offset : Nat) (c : Char) (rest : List Char) :
    r.readUpTo offset (c :: rest) =
      if r.pos + c.utf8Size ≤ offset then (r.step c).readUpTo offset rest else r := rfl

theorem readUpTo_eq_readAll (r : Reading) (offset : Nat) (text : List Char) :
    r.readUpTo offset text = r.readAll (takeBytes text (offset - r.pos)) :=
  reader.readUpTo_eq_readAll r offset text

theorem readUpTo_append_of_le {r : Reading} {offset : Nat} {s : List Char} (t : List Char)
    (h : r.pos + byteLength s ≤ offset) :
    r.readUpTo offset (s ++ t) = (r.readAll s).readUpTo offset t :=
  reader.readUpTo_append_of_le t h

theorem readUpTo_append_of_lt {r : Reading} {offset : Nat} {s : List Char} (t : List Char)
    (h : offset < r.pos + byteLength s) :
    r.readUpTo offset (s ++ t) = r.readUpTo offset s :=
  reader.readUpTo_append_of_lt t h

theorem readUpTo_concat_of_lt {r : Reading} {offset : Nat} {s : List Char} {c : Char}
    (h : offset < r.pos + byteLength (s ++ [c])) :
    r.readUpTo offset (s ++ [c]) = r.readUpTo offset s :=
  reader.readUpTo_concat_of_lt h

theorem upTo_eq_readAll (text : List Char) (offset : Nat) :
    upTo text offset = ({} : Reading).readAll (takeBytes text offset) :=
  reader.advance_eq_readAll rfl text offset

theorem upTo_eq_readUpTo (text : List Char) (offset : Nat) :
    upTo text offset = ({} : Reading).readUpTo offset text := by
  rw [upTo_eq_readAll, readUpTo_eq_readAll, Nat.sub_zero]

theorem upTo_of_isPrefix {s text : List Char} (h : s <+: text) :
    upTo text (byteLength s) = ({} : Reading).readAll s := by
  obtain ⟨t, rfl⟩ := h
  rw [upTo_eq_readAll, takeBytes_append]

end Reading

namespace Cursor

variable {stop : Nat}

/-! ### Levels -/

/-- The level as it is set aside where a nested extension opens. -/
def setAside (r : Cursor) : Level := (r.moveTo .value).startValue.level

/-- From `r` the character `c` leads to `q`: the levels around the current one stay, or a `{` sets
the current one aside, or a `}` brings the last one back. -/
def Shifts (r : Cursor) (c : Char) (q : Cursor) : Prop :=
  q.outer = r.outer ∨
    (c = '{' ∧ q.level = { phase := .name, nameStart := r.pos + 1 } ∧
      q.outer = r.setAside :: r.outer) ∨
    ∃ level, c = '}' ∧ r.outer = level :: q.outer ∧ q.level = level.goOnAt r.pos

section Outer

variable (r : Cursor)

@[simp] theorem moveTo_outer (phase : Phase) : (r.moveTo phase).outer = r.outer := rfl

@[simp] theorem endName_outer : r.endName.outer = r.outer := rfl

@[simp] theorem startValue_outer : r.startValue.outer = r.outer := rfl

@[simp] theorem openQuote_outer : r.openQuote.outer = r.outer := rfl

@[simp] theorem nextArgument_outer : r.nextArgument.outer = r.outer := rfl

@[simp] theorem endValue_outer : (r.endValue stop).outer = r.outer := rfl

@[simp] theorem nameFromValue_outer : (r.nameFromValue stop).outer = r.outer := rfl

end Outer

theorem outer_pass_of_ne (r : Cursor) {c : Char} (hopen : c ≠ '{') (hclose : c ≠ '}') :
    (r.accept stop c).outer = r.outer := by
  cases hphase : r.level.phase <;>
    simp [accept, hphase, readName, readValue, readArgumentName, readAfterName, readBeforeValue,
      apply_ite Cursor.outer, hopen, hclose]

private theorem shifts_openNested (r : Cursor) :
    r.Shifts '{' r.openNested := .inr (.inl ⟨rfl, rfl, rfl⟩)

private theorem shifts_close {r q : Cursor} (houter : q.outer = r.outer) (hpos : q.pos = r.pos) :
    r.Shifts '}' q.close := by
  unfold close
  split
  · next level outer h =>
      refine .inr (.inr ⟨level, rfl, by rw [← houter, h], ?_⟩)
      rw [Level.goOnAt, ← hpos]
  · exact .inl houter

private theorem shifts_pass_open (r : Cursor) : r.Shifts '{' (r.accept stop '{') := by
  cases hphase : r.level.phase with
  | outside => exact .inl (by simp [accept, hphase, apply_ite Cursor.outer])
  | name => exact .inl (by simp [accept, hphase, readName, isAsciiBlank, isMarkupBlank])
  | afterName => exact .inl (by simp [accept, hphase, readAfterName, isAsciiBlank, isMarkupBlank])
  | afterValue => exact .inl (by simp [accept, hphase])
  | argumentName =>
      simpa [accept, hphase, readArgumentName, isAsciiBlank, isMarkupBlank] using
        r.shifts_openNested
  | beforeValue =>
      simpa [accept, hphase, readBeforeValue, isAsciiBlank, isMarkupBlank] using
        r.shifts_openNested
  | value =>
      cases hquotes : r.level.argument.inQuotes with
      | true => exact .inl (by simp [accept, hphase, readValue, hquotes])
      | false => simpa [accept, hphase, readValue, hquotes] using r.shifts_openNested

private theorem shifts_pass_close (r : Cursor) : r.Shifts '}' (r.accept stop '}') := by
  have hclose : r.Shifts '}' r.close := shifts_close rfl rfl
  cases hphase : r.level.phase with
  | outside => exact .inl (by simp [accept, hphase])
  | name =>
      by_cases hempty : r.pos = r.level.nameStart ∧ r.outer = []
      · exact .inl (by simp [accept, hphase, readName, hempty])
      · simpa [accept, hphase, readName, isAsciiBlank, isMarkupBlank, hempty] using
          shifts_close (r := r) (q := r.endName) rfl rfl
  | afterName =>
      simpa [accept, hphase, readAfterName, isAsciiBlank, isMarkupBlank] using hclose
  | afterValue => simpa [accept, hphase] using hclose
  | argumentName =>
      simpa [accept, hphase, readArgumentName, isAsciiBlank, isMarkupBlank] using hclose
  | beforeValue =>
      simpa [accept, hphase, readBeforeValue, isAsciiBlank, isMarkupBlank] using hclose
  | value =>
      cases hquotes : r.level.argument.inQuotes with
      | true => exact .inl (by simp [accept, hphase, readValue, hquotes])
      | false =>
          simpa [accept, hphase, readValue, hquotes] using
            shifts_close (r := r) (q := r.endValue stop) rfl rfl

/-! ### Places -/

/-- `P` holds of every offset that the reading holds. -/
structure Marked (P : Nat → Prop) (r : Cursor) : Prop where
  level : r.level.Marked P
  outer : ∀ level ∈ r.outer, level.Marked P

section Marked

variable {P : Nat → Prop} {r : Cursor} {c : Char}

theorem Marked.mono {Q : Nat → Prop} (h : r.Marked P) (hPQ : ∀ m, P m → Q m) : r.Marked Q :=
  ⟨h.level.mono hPQ, fun level hlevel => (h.outer level hlevel).mono hPQ⟩

theorem Marked.moveTo (h : r.Marked P) (phase : Phase) : (r.moveTo phase).Marked P :=
  ⟨{ h.level with }, h.outer⟩

theorem Marked.endName (h : r.Marked P) (hpos : P r.pos) : r.endName.Marked P :=
  ⟨{ h.level with nameStop := by simp [Cursor.endName, hpos] }, h.outer⟩

theorem Marked.startValue (h : r.Marked P) (hpos : P r.pos) : r.startValue.Marked P := by
  refine ⟨{ h.level with valueStart := ?_ }, h.outer⟩
  cases hstart : r.level.argument.valueStart with
  | none => simp [Cursor.startValue, hstart, hpos]
  | some m => simp [Cursor.startValue, hstart, h.level.valueStart m hstart]

theorem Marked.openQuote (h : r.Marked P) (hnext : P (r.pos + 1)) : r.openQuote.Marked P :=
  ⟨{ h.level with valueStart := by simp [Cursor.openQuote, hnext] }, h.outer⟩

theorem Marked.openNested (h : r.Marked P) (hpos : P r.pos) (hnext : P (r.pos + 1)) :
    r.openNested.Marked P := by
  constructor
  · constructor <;> simp [Cursor.openNested, hnext]
  · intro level hlevel
    rcases List.mem_cons.mp hlevel with rfl | hlevel
    · exact ((h.moveTo .value).startValue hpos).level
    · exact h.outer level hlevel

theorem Marked.close (h : r.Marked P) (hnext : P (r.pos + 1)) : r.close.Marked P := by
  unfold Cursor.close
  split
  · next level outer houter =>
      have hlevel := h.outer level (by simp [houter])
      refine ⟨{ hlevel with valueStop := by simp [hnext] }, fun level hmem => ?_⟩
      exact h.outer level (by simp [houter, hmem])
  · exact h.moveTo .outside

theorem Marked.nextArgument (h : r.Marked P) : r.nextArgument.Marked P :=
  ⟨h.level.forget _ _, h.outer⟩

theorem Marked.endValue (h : r.Marked P) (hstop : P stop) : (r.endValue stop).Marked P :=
  ⟨{ h.level with valueStop := by simp [Cursor.endValue, hstop] }, h.outer⟩

theorem Marked.nameFromValue (h : r.Marked P) (hpos : P r.pos) (hstop : P stop) :
    (r.nameFromValue stop).Marked P := by
  have hstart : P (r.level.argument.valueStart.getD r.pos) := by
    cases hstart : r.level.argument.valueStart with
    | none => simpa using hpos
    | some m => simpa using h.level.valueStart m hstart
  have hmax : P (max stop (r.level.argument.valueStart.getD r.pos)) := by
    rcases Nat.le_total stop (r.level.argument.valueStart.getD r.pos) with hle | hle
    · rwa [Nat.max_eq_right hle]
    · rwa [Nat.max_eq_left hle]
  refine ⟨{ h.level.forget .beforeValue r.level.commas with
    argumentStart := ?_, argumentStop := ?_ }, h.outer⟩
  · simp [Cursor.nameFromValue, hstart]
  · simp [Cursor.nameFromValue, hmax]

theorem Marked.readName (h : r.Marked P) (hpos : P r.pos)
    (hnext : c.utf8Size = 1 → P (r.pos + 1)) : (r.readName c).Marked P := by
  unfold Cursor.readName
  dsimp only
  split
  · exact { h.moveTo .outside with }
  split
  · next hblank =>
      split
      · exact ⟨{ h.level with nameStart := hnext (utf8Size_of_isAsciiBlank hblank) }, h.outer⟩
      · exact ⟨(h.endName hpos).level.forget _ _, h.outer⟩
  split
  · next hc => exact (h.endName hpos).close (hnext (hc ▸ rfl))
  split
  · exact (h.endName hpos).nextArgument
  · exact h

theorem Marked.readValue (h : r.Marked P) (hpos : P r.pos) (hstop : P stop)
    (hnext : c.utf8Size = 1 → P (r.pos + 1)) : (r.readValue stop c).Marked P := by
  unfold Cursor.readValue
  dsimp only
  split
  · split
    · exact ⟨{ h.level with valueStop := by simp [hpos] }, h.outer⟩
    · exact h
  split
  · exact (h.endValue hstop).nextArgument
  split
  · next hc => exact (h.endValue hstop).close (hnext (hc ▸ rfl))
  split
  · next hc => exact h.openNested hpos (hnext (hc ▸ rfl))
  split
  · exact h.nameFromValue hpos hstop
  split
  · next hc =>
      simp only [Bool.and_eq_true, decide_eq_true_eq] at hc
      exact h.openQuote (hnext (hc.1 ▸ rfl))
  split
  · exact h
  · exact h.startValue hpos

theorem Marked.readArgumentName (h : r.Marked P) (hpos : P r.pos)
    (hnext : c.utf8Size = 1 → P (r.pos + 1)) : (r.readArgumentName c).Marked P := by
  have hstart : ∀ m, some (r.level.argument.nameStart.getD r.pos) = some m → P m := by
    cases hstart : r.level.argument.nameStart with
    | none => simpa using hpos
    | some m => simpa using h.level.argumentStart m hstart
  have hstop : P (max r.pos (r.level.argument.nameStart.getD r.pos)) := by
    rcases Nat.le_total (r.level.argument.nameStart.getD r.pos) r.pos with hle | hle
    · rwa [Nat.max_eq_left hle]
    · rw [Nat.max_eq_right hle]
      exact hstart _ rfl
  unfold Cursor.readArgumentName
  dsimp only
  split
  · split
    · exact ⟨{ h.level with argumentStop := by simp [hpos] }, h.outer⟩
    · exact h
  split
  · exact ⟨{ h.level with argumentStart := hstart, argumentStop := by simp [hstop] }, h.outer⟩
  split
  · exact h.nextArgument
  split
  · next hc => exact h.close (hnext (hc ▸ rfl))
  split
  · next hc => exact h.openNested hpos (hnext (hc ▸ rfl))
  split
  · next hc => exact h.openQuote (hnext (hc ▸ rfl))
  · exact ⟨{ h.level with argumentStart := hstart }, h.outer⟩

theorem Marked.readAfterName (h : r.Marked P) (hpos : P r.pos)
    (hnext : c.utf8Size = 1 → P (r.pos + 1)) : (r.readAfterName c).Marked P := by
  unfold Cursor.readAfterName
  split
  · exact h
  split
  · exact h.moveTo .beforeValue
  split
  · exact h.nextArgument
  split
  · next hc => exact h.close (hnext (hc ▸ rfl))
  · exact ⟨{ h.level.forget .argumentName r.level.commas with
      argumentStart := by simp [hpos] }, h.outer⟩

theorem Marked.readBeforeValue (h : r.Marked P) (hpos : P r.pos)
    (hnext : c.utf8Size = 1 → P (r.pos + 1)) : (r.readBeforeValue c).Marked P := by
  unfold Cursor.readBeforeValue
  split
  · exact h
  split
  · next hc => exact h.openQuote (hnext (hc ▸ rfl))
  split
  · next hc => exact h.openNested hpos (hnext (hc ▸ rfl))
  split
  · exact h.nextArgument
  split
  · next hc => exact h.close (hnext (hc ▸ rfl))
  · exact ⟨{ h.level with valueStart := by simp [hpos] }, h.outer⟩

theorem Marked.accept (h : r.Marked P) (hpos : P r.pos) (hstop : P stop)
    (hnext : c.utf8Size = 1 → P (r.pos + 1)) : (r.accept stop c).Marked P := by
  unfold Cursor.accept
  split
  · split
    · next hc =>
        simp only [Bool.and_eq_true, decide_eq_true_eq] at hc
        refine ⟨?_, h.outer⟩
        constructor <;> simp [hnext (hc.1 ▸ rfl)]
    · exact h
  · exact h.readName hpos hnext
  · exact h.readValue hpos hstop hnext
  · exact h.readArgumentName hpos hnext
  · exact h.readAfterName hpos hnext
  · exact h.readBeforeValue hpos hnext
  · split
    · exact h.nextArgument
    · split
      · next hc => exact h.close (hnext (hc ▸ rfl))
      · exact h

end Marked

end Cursor

namespace Reading

theorem outer_readAll_of_ne (r : Reading) {s : List Char} (hs : ∀ c ∈ s, c ≠ '{' ∧ c ≠ '}') :
    (r.readAll s).outer = r.outer := by
  induction s generalizing r with
  | nil => rfl
  | cons c s ih =>
      obtain ⟨hopen, hclose⟩ := hs c List.mem_cons_self
      rw [readAll_cons, ih (r.step c) fun d hd => hs d (List.mem_cons_of_mem c hd)]
      unfold step
      split
      · rfl
      · exact r.outer_pass_of_ne hopen hclose

/-- What a character does to the levels. -/
theorem shifts_step (r : Reading) (c : Char) : r.Shifts c (r.step c).toCursor := by
  unfold step
  split
  · exact .inl rfl
  by_cases hopen : c = '{'
  · subst hopen
    exact r.shifts_pass_open
  by_cases hclose : c = '}'
  · subst hclose
    exact r.shifts_pass_close
  · exact .inl (r.outer_pass_of_ne hopen hclose)

private theorem trimmedPos_cases (r : Reading) :
    r.level.argument.valueStart = some r.trimmedPos ∨ r.trimmedPos = r.pos ∨
      r.trimmedPos = r.pos - r.blanks := by
  unfold trimmedPos
  cases r.level.argument.valueStart with
  | none => simp
  | some m =>
      simp
      omega

theorem trimmedPos_of_marked {P : Nat → Prop} {r : Reading} (h : r.Marked P) (hpos : P r.pos)
    (htrim : P (r.pos - r.blanks)) : P r.trimmedPos := by
  rcases r.trimmedPos_cases with hstart | heq | heq
  · exact h.level.valueStart _ hstart
  · exact heq ▸ hpos
  · exact heq ▸ htrim

/-- The reading has read `text`: its position is the end, its number of blanks is right, and every
offset that it holds is a place. -/
structure HasRead (r : Reading) (text : List Char) : Prop where
  pos_eq : r.pos = byteLength text
  blanks : r.blanks = (text.reverse.takeWhile isAsciiBlank).length
  marked : r.Marked fun m => isPlace text m = true

theorem byteLength_of_blank {run : List Char} (h : ∀ c ∈ run, isAsciiBlank c = true) :
    byteLength run = run.length := by
  induction run with
  | nil => rfl
  | cons c run ih =>
      rw [byteLength_cons, utf8Size_of_isAsciiBlank (h c List.mem_cons_self),
        ih fun d hd => h d (List.mem_cons_of_mem c hd), List.length_cons, Nat.add_comm]

theorem HasRead.exists_run {r : Reading} {text : List Char} (h : r.HasRead text) :
    ∃ init run, text = init ++ run ∧ run.length = r.blanks ∧ ∀ c ∈ run, isAsciiBlank c = true := by
  have hsplit := List.takeWhile_append_dropWhile (p := isAsciiBlank) (l := text.reverse)
  refine ⟨(text.reverse.dropWhile isAsciiBlank).reverse,
    (text.reverse.takeWhile isAsciiBlank).reverse, ?_, ?_, ?_⟩
  · rw [← List.reverse_append, hsplit, List.reverse_reverse]
  · rw [List.length_reverse, h.blanks]
  · intro c hc
    exact List.all_eq_true.mp List.all_takeWhile c (List.mem_reverse.mp hc)

theorem HasRead.step {r : Reading} {text : List Char} (h : r.HasRead text) (c : Char) :
    (r.step c).HasRead (text ++ [c]) := by
  obtain ⟨init, run, htext, hlength, hblank⟩ := h.exists_run
  obtain ⟨hpos, hblanks, hmarked⟩ := h
  constructor
  · simp [step_pos, hpos]
  · rw [List.reverse_concat, List.takeWhile_cons]
    by_cases hc : isAsciiBlank c = true
    · simp [Reading.step, hc, hblanks]
    · simp [Reading.step, hc]
  · have hkept : r.Marked fun m => isPlace (text ++ [c]) m = true :=
      hmarked.mono fun m hm => isPlace_append_left hm [c]
    have hhere : isPlace (text ++ [c]) r.pos = true := isPlace_iff.mpr ⟨text, [c], rfl, hpos.symm⟩
    have htrim : isPlace (text ++ [c]) (r.pos - r.blanks) = true := by
      refine isPlace_iff.mpr ⟨init, run ++ [c], by rw [htext, List.append_assoc], ?_⟩
      rw [hpos, htext, byteLength_append, byteLength_of_blank hblank, hlength]
      omega
    have hnext : c.utf8Size = 1 → isPlace (text ++ [c]) (r.pos + 1) = true := by
      intro hsize
      exact isPlace_iff.mpr ⟨text ++ [c], [], by simp, by simp [hsize, hpos]⟩
    unfold Reading.step
    split
    · exact ⟨hkept.level, hkept.outer⟩
    · have hreact := hkept.accept hhere (trimmedPos_of_marked hkept hhere htrim) hnext
      exact ⟨hreact.level, hreact.outer⟩

theorem HasRead.readAll {r : Reading} {text : List Char} (h : r.HasRead text) (s : List Char) :
    (r.readAll s).HasRead (text ++ s) := by
  induction s generalizing r text with
  | nil => simpa using h
  | cons c s ih => simpa using ih (h.step c)

theorem hasRead_readAll (text : List Char) : (({} : Reading).readAll text).HasRead text := by
  have hstart : ({} : Reading).HasRead [] := by
    refine ⟨rfl, rfl, ⟨?_, by simp⟩⟩
    constructor <;> simp [isPlace, splitAt?]
  simpa using hstart.readAll text

end Reading

end XamlAssist.Extension
