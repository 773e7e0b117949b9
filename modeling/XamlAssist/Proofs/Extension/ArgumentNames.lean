import XamlAssist.Proofs.Extension.Literal

/-!
# Names of arguments

The name of an argument ends at a blank or at the `=` behind it, and there its end is noted. A `}`,
a `{` or a quote leaves the name too, but without a note, and the name that is told then goes on up
to the caret. Main statement: `argumentName_within_iff`, the name that is told stays within its
argument unless it was left in this way and something that ends an argument has been read since.
-/

namespace XamlAssist.Extension

open Text

/-- The characters that end an argument. -/
def endsArgument (c : Char) : Bool := c = ',' || c = '}'

/-- The text stays within one argument. -/
def IsWithin (s : List Char) : Prop := ∀ c ∈ s, endsArgument c = false

/-- A name goes on over one of the characters that leave it. -/
def RunsOn (piece : List Char) : Prop :=
  ∃ word mark more, piece = word ++ mark :: more ∧ word ≠ [] ∧ IsWithin word ∧
    mark ∈ ['{', '}', '\x27']

/-- Behind the place `start`, `piece` has been read. -/
def ReadSince (read : List Char) (start : Nat) (piece : List Char) : Prop :=
  ∃ before, read = before ++ piece ∧ byteLength before = start

/-! ### Pieces of the text -/

private theorem endsArgument_of_ne {c : Char} (hcomma : c ≠ ',') (hclose : c ≠ '}') :
    endsArgument c = false := by
  simp [endsArgument, hcomma, hclose]

private theorem isWithin_append {s t : List Char} : IsWithin (s ++ t) ↔ IsWithin s ∧ IsWithin t :=
  List.forall_mem_append

private theorem isWithin_nil : IsWithin [] := by simp [IsWithin]

private theorem isWithin_singleton {c : Char} (h : endsArgument c = false) : IsWithin [c] :=
  List.forall_mem_singleton.mpr h

theorem RunsOn.append {piece : List Char} (h : RunsOn piece) (s : List Char) :
    RunsOn (piece ++ s) := by
  obtain ⟨word, mark, more, rfl, hne, hwithin, hmark⟩ := h
  exact ⟨word, mark, more ++ s, by simp, hne, hwithin, hmark⟩

namespace ReadSince

variable {read piece : List Char} {start : Nat}

theorem append (h : ReadSince read start piece) (s : List Char) :
    ReadSince (read ++ s) start (piece ++ s) := by
  obtain ⟨before, rfl, hstart⟩ := h
  exact ⟨before, List.append_assoc _ _ _, hstart⟩

theorem here (read s : List Char) : ReadSince (read ++ s) (byteLength read) s := ⟨read, rfl, rfl⟩

theorem byteLength_eq (h : ReadSince read start piece) :
    byteLength read = start + byteLength piece := by
  obtain ⟨before, rfl, rfl⟩ := h
  exact byteLength_append before piece

theorem cut (h : ReadSince read start piece) {stop : Nat} (hstop : isPlace read stop = true)
    (hle : start ≤ stop) : ∃ s t, piece = s ++ t ∧ stop = start + byteLength s := by
  obtain ⟨before, rfl, rfl⟩ := h
  obtain ⟨s, t, hst, rfl⟩ := isPlace_iff.mp hstop
  rcases List.append_eq_append_iff.mp hst with ⟨m, rfl, rfl⟩ | ⟨m, rfl, rfl⟩
  · exact ⟨m, t, rfl, byteLength_append before m⟩
  · rw [byteLength_append] at hle ⊢
    exact ⟨[], piece, rfl, by rw [byteLength_nil]; omega⟩

theorem drop {s t : List Char} (h : ReadSince read start (s ++ t)) :
    ReadSince read (start + byteLength s) t := by
  obtain ⟨before, rfl, rfl⟩ := h
  exact ⟨before ++ s, by simp, byteLength_append before s⟩

private theorem text_span {s t rest : List Char} (h : ReadSince read start (s ++ t))
    (hsize : byteLength (read ++ rest) < 4294967296) :
    (Span.ofOffsets start (start + byteLength s)).text (read ++ rest) = String.ofList s := by
  obtain ⟨before, rfl, rfl⟩ := h
  have hsplit : before ++ (s ++ t) ++ rest = before ++ (s ++ (t ++ rest)) := by simp
  exact Span.text_ofOffsets hsplit hsize rfl rfl

end ReadSince

/-! ### One level -/

/-- The name of the argument started at `start` and its end is not noted. -/
inductive Level.OpenName (level : Level) (read : List Char) (start : Nat) : Prop
  | inName {word : List Char} (phase : level.phase = .argumentName)
      (since : ReadSince read start word) (ne : word ≠ []) (within : IsWithin word)
  /-- The extension was closed in the name. -/
  | closed {piece : List Char} (phase : level.phase = .outside)
      (since : ReadSince read start piece) (runsOn : RunsOn piece)
      (ends : ∃ c ∈ piece, endsArgument c = true)
  /-- A value was opened in the name. -/
  | inValue {head value : List Char} (phase : level.phase = .value)
      (since : ReadSince read start (head ++ value)) (runsOn : RunsOn (head ++ value))
      (within : IsWithin head)
      (valueStart : level.argument.valueStart = some (start + byteLength head))
  /-- A value was opened in the name, and closed. -/
  | behindValue {head value behind : List Char} (phase : level.phase = .afterValue)
      (since : ReadSince read start (head ++ (value ++ behind)))
      (runsOn : RunsOn (head ++ (value ++ behind)))
      (within : IsWithin head) (withinBehind : IsWithin behind)
      (valueStart : level.argument.valueStart = some (start + byteLength head))
      (valueStop : level.argument.valueStop = some (start + byteLength head + byteLength value))

/-- What the level tells as the name of its argument. -/
structure Level.TellsName (level : Level) (read : List Char) : Prop where
  ended : ∀ start stop, level.argument.nameStart = some start →
    level.argument.nameStop = some stop →
      ∃ word more, ReadSince read start (word ++ more) ∧ stop = start + byteLength word ∧
        IsWithin word
  opened : ∀ start, level.argument.nameStart = some start → level.argument.nameStop = none →
    level.OpenName read start

namespace Level

variable {level next : Level} {read : List Char} {start : Nat} {c : Char}

private theorem tellsName_of_unnamed (h : level.argument.nameStart = none) :
    level.TellsName read := by
  constructor <;> simp [h]

private theorem tellsName_of_ended {word more : List Char}
    (hstart : level.argument.nameStart = some start)
    (hstop : level.argument.nameStop = some (start + byteLength word))
    (hsince : ReadSince read start (word ++ more)) (hwithin : IsWithin word) :
    level.TellsName read where
  ended start' stop hstart' hstop' := by
    obtain rfl := Option.some.inj (hstart.symm.trans hstart')
    obtain rfl := Option.some.inj (hstop.symm.trans hstop')
    exact ⟨word, more, hsince, rfl, hwithin⟩
  opened _ _ hnone := absurd (hstop.symm.trans hnone) (by simp)

theorem TellsName.step (h : level.TellsName read)
    (hstart : next.argument.nameStart = level.argument.nameStart)
    (hstop : next.argument.nameStop = level.argument.nameStop)
    (hopen : ∀ start, level.OpenName read start → next.OpenName (read ++ [c]) start) :
    next.TellsName (read ++ [c]) where
  ended start stop hstart' hstop' := by
    obtain ⟨word, more, hsince, hlength, hwithin⟩ :=
      h.ended start stop (hstart ▸ hstart') (hstop ▸ hstop')
    refine ⟨word, more ++ [c], ?_, hlength, hwithin⟩
    rw [← List.append_assoc]
    exact hsince.append [c]
  opened start hstart' hstop' :=
    hopen start (h.opened start (hstart ▸ hstart') (hstop ▸ hstop'))

theorem TellsName.stays (h : level.TellsName read) (hname : level.phase ≠ .argumentName)
    (hbehind : level.phase = .afterValue → endsArgument c = false) :
    level.TellsName (read ++ [c]) := by
  refine h.step rfl rfl fun start hopen => ?_
  cases hopen with
  | inName phase => exact absurd phase hname
  | closed phase since runsOn ends =>
      obtain ⟨d, hd, hends⟩ := ends
      exact .closed phase (since.append [c]) (runsOn.append [c])
        ⟨d, List.mem_append_left [c] hd, hends⟩
  | @inValue head value phase since runsOn within valueStart =>
      have hassoc : head ++ (value ++ [c]) = head ++ value ++ [c] := by simp
      exact .inValue phase (hassoc ▸ since.append [c]) (hassoc ▸ runsOn.append [c]) within
        valueStart
  | @behindValue head value behind phase since runsOn within withinBehind valueStart valueStop =>
      have hassoc : head ++ (value ++ (behind ++ [c])) = head ++ (value ++ behind) ++ [c] := by simp
      have hwithin := isWithin_append.mpr ⟨withinBehind, isWithin_singleton (hbehind phase)⟩
      exact .behindValue phase (hassoc ▸ since.append [c]) (hassoc ▸ runsOn.append [c]) within
        hwithin valueStart valueStop

private theorem OpenName.phase_cases (h : level.OpenName read start) :
    level.phase = .argumentName ∨ level.phase = .outside ∨ level.phase = .value ∨
      level.phase = .afterValue := by
  cases h <;> simp [*]

private theorem OpenName.of_value (h : level.OpenName read start) (hphase : level.phase = .value) :
    ∃ head value, ReadSince read start (head ++ value) ∧ RunsOn (head ++ value) ∧ IsWithin head ∧
      level.argument.valueStart = some (start + byteLength head) := by
  cases h with
  | inName phase => exact absurd (hphase.symm.trans phase) (by simp)
  | closed phase => exact absurd (hphase.symm.trans phase) (by simp)
  | behindValue phase => exact absurd (hphase.symm.trans phase) (by simp)
  | inValue _ since runsOn within valueStart => exact ⟨_, _, since, runsOn, within, valueStart⟩

theorem TellsName.moves (h : level.TellsName read)
    (hphase : level.phase = .afterName ∨ level.phase = .beforeValue)
    (hstart : next.argument.nameStart = level.argument.nameStart)
    (hstop : next.argument.nameStop = level.argument.nameStop) :
    next.TellsName (read ++ [c]) := by
  refine h.step hstart hstop fun start hopen => ?_
  rcases hopen.phase_cases with hopen | hopen | hopen | hopen <;>
    rcases hphase with hphase | hphase <;> simp [hphase] at hopen

theorem OpenName.close (h : level.OpenName read start) (hphase : next.phase = .outside) :
    next.OpenName (read ++ ['}']) start := by
  have hends {piece : List Char} : ∃ c ∈ piece ++ ['}'], endsArgument c = true :=
    ⟨'}', by simp, by decide⟩
  cases h with
  | inName _ since ne within =>
      exact .closed hphase (since.append ['}']) ⟨_, '}', [], rfl, ne, within, by simp⟩ hends
  | closed _ since runsOn => exact .closed hphase (since.append ['}']) (runsOn.append ['}']) hends
  | inValue _ since runsOn => exact .closed hphase (since.append ['}']) (runsOn.append ['}']) hends
  | behindValue _ since runsOn =>
      exact .closed hphase (since.append ['}']) (runsOn.append ['}']) hends

theorem TellsName.goOnAt (h : level.TellsName read) (hphase : level.phase = .value) :
    (level.goOnAt (byteLength read)).TellsName (read ++ ['}']) := by
  refine h.step rfl rfl fun start hopen => ?_
  obtain ⟨head, value, since, runsOn, within, valueStart⟩ := hopen.of_value hphase
  have hassoc : head ++ ((value ++ ['}']) ++ []) = head ++ value ++ ['}'] := by simp
  refine .behindValue rfl (hassoc ▸ since.append ['}']) (hassoc ▸ runsOn.append ['}']) within
    isWithin_nil valueStart ?_
  have hbrace : '}'.utf8Size = 1 := rfl
  have hlength := since.byteLength_eq
  simp only [byteLength_append] at hlength
  simp only [Level.goOnAt, byteLength_append, byteLength_cons, byteLength_nil, hbrace,
    Option.some.injEq]
  omega

end Level

namespace Cursor

/-- What the levels tell as the names of their arguments. -/
structure TellsArguments (r : Cursor) (read : List Char) : Prop where
  level : r.level.TellsName read
  outer : ∀ level ∈ r.outer, level.TellsName read ∧ level.phase = .value
  unvalued : r.level.phase = .argumentName → r.level.argument.valueStart = none
  /-- A value without quotes may still turn out to be a name. -/
  inValue : r.level.phase = .value → r.level.argument.inQuotes = false →
    ∀ start, r.level.argument.valueStart = some start →
      ∃ word, ReadSince read start word ∧ IsWithin word

/-! ### One character -/

section Steps

variable {r : Cursor} {stop : Nat} {read : List Char} {c : Char}

private theorem TellsArguments.outer_append (h : r.TellsArguments read) (c : Char) :
    ∀ level ∈ r.outer, level.TellsName (read ++ [c]) ∧ level.phase = .value := by
  intro level hlevel
  obtain ⟨htells, hphase⟩ := h.outer level hlevel
  exact ⟨htells.stays (by simp [hphase]) (by simp [hphase]), hphase⟩

private theorem TellsArguments.settles {q : Cursor} (h : r.TellsArguments read)
    (houter : q.outer = r.outer) (hlevel : q.level.TellsName (read ++ [c]))
    (hname : q.level.phase ≠ .argumentName) (hvalue : q.level.phase ≠ .value) :
    q.TellsArguments (read ++ [c]) where
  level := hlevel
  outer := houter ▸ h.outer_append c
  unvalued hphase := absurd hphase hname
  inValue hphase := absurd hphase hvalue

theorem TellsArguments.nextArgument (h : r.TellsArguments read) :
    r.nextArgument.TellsArguments (read ++ [c]) where
  level := Level.tellsName_of_unnamed rfl
  outer := h.outer_append c
  unvalued _ := rfl
  inValue hphase := absurd hphase (by simp [Cursor.nextArgument])

theorem TellsArguments.close (h : r.TellsArguments read) (hpos : r.pos = byteLength read) :
    r.close.TellsArguments (read ++ ['}']) := by
  unfold Cursor.close
  split
  · next level outer houter =>
      obtain ⟨htells, hphase⟩ := h.outer level (by simp [houter])
      have haround := h.outer_append '}'
      refine ⟨?_, fun other hother => haround other (by simp [houter, hother]), by simp, by simp⟩
      rw [hpos]
      exact htells.goOnAt hphase
  · next houter =>
      exact h.settles rfl (h.level.step rfl rfl fun _ hopen => hopen.close rfl)
        (by simp [Cursor.moveTo]) (by simp [Cursor.moveTo])

theorem TellsArguments.endValue (h : r.TellsArguments read) (hphase : r.level.phase = .value) :
    (r.endValue stop).TellsArguments read where
  level := {
    ended := h.level.ended
    opened := fun start hstart hstop => by
      obtain ⟨head, value, since, runsOn, within, valueStart⟩ :=
        (h.level.opened start hstart hstop).of_value hphase
      exact .inValue hphase since runsOn within valueStart }
  outer := h.outer
  unvalued := h.unvalued
  inValue := h.inValue

theorem TellsArguments.setAside (h : r.TellsArguments read) (hpos : r.pos = byteLength read)
    (hphase : r.level.phase = .argumentName ∨ r.level.phase = .beforeValue ∨
      r.level.phase = .value) : r.setAside.TellsName (read ++ ['{']) := by
  refine h.level.step rfl rfl fun start hopen => ?_
  cases hopen with
  | @inName word phase since ne within =>
      refine .inValue rfl (since.append ['{']) ⟨word, '{', [], rfl, ne, within, by simp⟩ within ?_
      simp [Cursor.setAside, Cursor.startValue, Cursor.moveTo, h.unvalued phase, hpos,
        since.byteLength_eq]
  | closed phase => simp [phase] at hphase
  | behindValue phase => simp [phase] at hphase
  | @inValue head value _ since runsOn within valueStart =>
      have hassoc : head ++ (value ++ ['{']) = head ++ value ++ ['{'] := by simp
      refine .inValue rfl (hassoc ▸ since.append ['{']) (hassoc ▸ runsOn.append ['{']) within ?_
      simp [Cursor.setAside, Cursor.startValue, Cursor.moveTo, valueStart]

theorem TellsArguments.openNested (h : r.TellsArguments read) (hpos : r.pos = byteLength read)
    (hphase : r.level.phase = .argumentName ∨ r.level.phase = .beforeValue ∨
      r.level.phase = .value) : r.openNested.TellsArguments (read ++ ['{']) where
  level := Level.tellsName_of_unnamed rfl
  outer level hlevel := by
    rcases List.mem_cons.mp hlevel with rfl | hlevel
    · exact ⟨h.setAside hpos hphase, rfl⟩
    · exact h.outer_append '{' level hlevel
  unvalued := by simp [Cursor.openNested]
  inValue := by simp [Cursor.openNested]

theorem TellsArguments.openQuote (h : r.TellsArguments read) (hpos : r.pos = byteLength read)
    (hphase : r.level.phase = .argumentName ∨ r.level.phase = .beforeValue ∨
      r.level.phase = .value ∧ r.level.argument.valueStart = none) :
    r.openQuote.TellsArguments (read ++ ['\x27']) := by
  refine ⟨h.level.step rfl rfl fun start hopen => ?_, h.outer_append '\x27',
    by simp [Cursor.openQuote], by simp [Cursor.openQuote]⟩
  cases hopen with
  | @inName word _ since ne within =>
      have hwithin : IsWithin (word ++ ['\x27']) :=
        isWithin_append.mpr ⟨within, isWithin_singleton (by decide)⟩
      have hsince : ReadSince (read ++ ['\x27']) start ((word ++ ['\x27']) ++ []) := by
        simpa using since.append ['\x27']
      refine .inValue rfl hsince ⟨word, '\x27', [], by simp, ne, within, by simp⟩ hwithin ?_
      have hquote : '\x27'.utf8Size = 1 := rfl
      simp [Cursor.openQuote, hpos, since.byteLength_eq, hquote, Nat.add_assoc]
  | closed phase => simp [phase] at hphase
  | behindValue phase => simp [phase] at hphase
  | inValue phase _ _ _ valueStart => simp [phase, valueStart] at hphase

theorem TellsArguments.readName (h : r.TellsArguments read) (hpos : r.pos = byteLength read)
    (hfresh : r.level.argument = {}) (hphase : r.level.phase = .name) :
    (r.readName c).TellsArguments (read ++ [c]) := by
  have hnone {level : Level} {s : List Char} (hargument : level.argument = r.level.argument) :
      level.TellsName s :=
    Level.tellsName_of_unnamed (by rw [hargument, hfresh])
  have hended : r.endName.TellsArguments read :=
    ⟨hnone rfl, h.outer, by simp [Cursor.endName, hphase], by simp [Cursor.endName, hphase]⟩
  unfold Cursor.readName
  dsimp only
  split
  · exact h.settles rfl (hnone rfl) (by simp [Cursor.moveTo]) (by simp [Cursor.moveTo])
  split
  · split
    · exact h.settles rfl (hnone rfl) (by simp [hphase]) (by simp [hphase])
    · exact ⟨Level.tellsName_of_unnamed rfl, h.outer_append c, fun _ => rfl, by simp⟩
  split
  · next hc => exact hc ▸ hended.close hpos
  split
  · exact hended.nextArgument
  · exact h.settles rfl (hnone rfl) (by simp [hphase]) (by simp [hphase])

theorem TellsArguments.readQuoted (h : r.TellsArguments read) (hpos : r.pos = byteLength read)
    (hphase : r.level.phase = .value) (hquotes : r.level.argument.inQuotes = true) :
    (r.readValue stop c).TellsArguments (read ++ [c]) := by
  unfold Cursor.readValue
  dsimp only
  rw [if_pos hquotes]
  split
  · next hc =>
      subst hc
      refine h.settles rfl (h.level.step rfl rfl fun start hopen => ?_) (by simp) (by simp)
      obtain ⟨head, value, since, runsOn, within, valueStart⟩ := hopen.of_value hphase
      have hassoc : head ++ (value ++ ['\x27']) = head ++ value ++ ['\x27'] := by simp
      refine .behindValue rfl (hassoc ▸ since.append _) (hassoc ▸ runsOn.append _) within
        (isWithin_singleton (by decide)) valueStart ?_
      simp [hpos, since.byteLength_eq, Nat.add_assoc]
  · refine ⟨h.level.stays (by simp [hphase]) (by simp [hphase]), h.outer_append c, h.unvalued, ?_⟩
    simp [hquotes]

private theorem TellsArguments.exists_value (h : r.TellsArguments read)
    (hpos : r.pos = byteLength read)
    (hphase : r.level.phase = .value) (hquotes : r.level.argument.inQuotes = false) :
    ∃ word, ReadSince read (r.level.argument.valueStart.getD r.pos) word ∧ IsWithin word := by
  cases hvalue : r.level.argument.valueStart with
  | none => exact ⟨[], ⟨read, (List.append_nil read).symm, hpos.symm⟩, isWithin_nil⟩
  | some start => exact h.inValue hphase hquotes start hvalue

private theorem TellsArguments.exists_name (h : r.TellsArguments read)
    (hpos : r.pos = byteLength read)
    (hphase : r.level.phase = .argumentName) (hstop : r.level.argument.nameStop = none) :
    ∃ word, ReadSince read (r.level.argument.nameStart.getD r.pos) word ∧ IsWithin word := by
  cases hname : r.level.argument.nameStart with
  | none => exact ⟨[], ⟨read, (List.append_nil read).symm, hpos.symm⟩, isWithin_nil⟩
  | some start =>
      cases h.level.opened start hname hstop with
      | inName _ since _ within => exact ⟨_, since, within⟩
      | closed phase => exact absurd (hphase.symm.trans phase) (by simp)
      | inValue phase => exact absurd (hphase.symm.trans phase) (by simp)
      | behindValue phase => exact absurd (hphase.symm.trans phase) (by simp)

theorem TellsArguments.nameFromValue (h : r.TellsArguments read) (hpos : r.pos = byteLength read)
    (hstop : isPlace read stop = true) (hle : r.level.argument.valueStart.getD r.pos ≤ stop)
    (hphase : r.level.phase = .value) (hquotes : r.level.argument.inQuotes = false) :
    (r.nameFromValue stop).TellsArguments (read ++ [c]) := by
  obtain ⟨word, hsince, hwithin⟩ := h.exists_value hpos hphase hquotes
  obtain ⟨s, t, rfl, hlength⟩ := hsince.cut hstop hle
  have happend := hsince.append [c]
  rw [List.append_assoc] at happend
  refine h.settles rfl ?_ (by simp [Cursor.nameFromValue]) (by simp [Cursor.nameFromValue])
  refine Level.tellsName_of_ended rfl ?_ happend (isWithin_append.mp hwithin).1
  rw [Cursor.nameFromValue, Nat.max_eq_left hle, hlength]

theorem TellsArguments.readUnquoted (h : r.TellsArguments read) (hpos : r.pos = byteLength read)
    (hstop : isPlace read stop = true) (hle : r.level.argument.valueStart.getD r.pos ≤ stop)
    (hphase : r.level.phase = .value) (hquotes : r.level.argument.inQuotes = false) :
    (r.readValue stop c).TellsArguments (read ++ [c]) := by
  obtain ⟨word, hsince, hwithin⟩ := h.exists_value hpos hphase hquotes
  have hkept : r.level.TellsName (read ++ [c]) :=
    h.level.stays (by simp [hphase]) (by simp [hphase])
  unfold Cursor.readValue
  dsimp only
  rw [if_neg (by simp [hquotes])]
  split
  · exact (h.endValue hphase).nextArgument
  next hcomma =>
  split
  · next hc => exact hc ▸ (h.endValue hphase).close hpos
  next hclose =>
  have hlonger : IsWithin (word ++ [c]) :=
    isWithin_append.mpr ⟨hwithin, isWithin_singleton (endsArgument_of_ne hcomma hclose)⟩
  split
  · next hc => exact hc ▸ h.openNested hpos (.inr (.inr hphase))
  split
  · exact h.nameFromValue hpos hstop hle hphase hquotes
  split
  · next hc =>
      simp only [Bool.and_eq_true, decide_eq_true_eq, Option.isNone_iff_eq_none] at hc
      exact hc.1 ▸ h.openQuote hpos (.inr (.inr ⟨hphase, hc.2⟩))
  split
  · refine ⟨hkept, h.outer_append c, h.unvalued, fun _ _ start hstart => ?_⟩
    rw [hstart, Option.getD_some] at hsince
    exact ⟨word ++ [c], hsince.append [c], hlonger⟩
  · refine ⟨?_, h.outer_append c, by simp [Cursor.startValue, hphase], fun _ _ start hstart => ?_⟩
    · refine ⟨hkept.ended, fun start hstart hstop => ?_⟩
      obtain ⟨head, value, since, runsOn, within, valueStart⟩ :=
        (hkept.opened start hstart hstop).of_value hphase
      exact .inValue hphase since runsOn within (by simp [Cursor.startValue, valueStart])
    · obtain rfl := Option.some.inj hstart
      exact ⟨word ++ [c], hsince.append [c], hlonger⟩

theorem TellsArguments.readArgumentName (h : r.TellsArguments read) (hpos : r.pos = byteLength read)
    (hphase : r.level.phase = .argumentName) (hstop : r.level.argument.nameStop = none) :
    (r.readArgumentName c).TellsArguments (read ++ [c]) := by
  obtain ⟨word, hsince, hwithin⟩ := h.exists_name hpos hphase hstop
  have happend := hsince.append [c]
  have hlength : r.pos = r.level.argument.nameStart.getD r.pos + byteLength word := by
    rw [← hsince.byteLength_eq, hpos]
  unfold Cursor.readArgumentName
  dsimp only
  split
  · split
    · next hsome =>
        obtain ⟨start, hstart⟩ := Option.isSome_iff_exists.mp hsome
        rw [hstart, Option.getD_some] at happend hlength
        exact h.settles rfl
          (Level.tellsName_of_ended hstart (congrArg some hlength) happend hwithin)
          (by simp) (by simp)
    · next hnone =>
        have hnone : r.level.argument.nameStart = none := by simpa using hnone
        exact ⟨Level.tellsName_of_unnamed hnone, h.outer_append c, h.unvalued, by simp [hphase]⟩
  split
  · refine h.settles rfl (Level.tellsName_of_ended rfl ?_ happend hwithin) (by simp) (by simp)
    exact congrArg some ((Nat.max_eq_left (by omega)).trans hlength)
  split
  · exact h.nextArgument
  next hcomma =>
  split
  · next hc => exact hc ▸ h.close hpos
  next hclose =>
  split
  · next hc => exact hc ▸ h.openNested hpos (.inl hphase)
  split
  · next hc => exact hc ▸ h.openQuote hpos (.inl hphase)
  · refine ⟨⟨fun _ _ _ hsome => absurd (hstop.symm.trans hsome) (by simp), ?_⟩, h.outer_append c,
      h.unvalued, by simp [hphase]⟩
    intro start hstart _
    obtain rfl := Option.some.inj hstart
    exact .inName hphase happend (by simp)
      (isWithin_append.mpr ⟨hwithin, isWithin_singleton (endsArgument_of_ne hcomma hclose)⟩)

theorem TellsArguments.readAfterName (h : r.TellsArguments read) (hpos : r.pos = byteLength read)
    (hphase : r.level.phase = .afterName) : (r.readAfterName c).TellsArguments (read ++ [c]) := by
  unfold Cursor.readAfterName
  split
  · exact h.settles rfl (h.level.moves (.inl hphase) rfl rfl) (by simp [hphase]) (by simp [hphase])
  split
  · exact h.settles rfl (h.level.moves (.inl hphase) rfl rfl) (by simp [Cursor.moveTo])
      (by simp [Cursor.moveTo])
  split
  · exact h.nextArgument
  next hcomma =>
  split
  · next hc => exact hc ▸ h.close hpos
  next hclose =>
  refine ⟨⟨by simp, fun start hstart _ => ?_⟩, h.outer_append c, fun _ => rfl, by simp⟩
  obtain rfl := Option.some.inj hstart
  rw [hpos]
  exact .inName rfl (ReadSince.here read [c]) (by simp)
    (isWithin_singleton (endsArgument_of_ne hcomma hclose))

theorem TellsArguments.readBeforeValue (h : r.TellsArguments read) (hpos : r.pos = byteLength read)
    (hphase : r.level.phase = .beforeValue) :
    (r.readBeforeValue c).TellsArguments (read ++ [c]) := by
  unfold Cursor.readBeforeValue
  split
  · exact h.settles rfl (h.level.moves (.inr hphase) rfl rfl) (by simp [hphase]) (by simp [hphase])
  split
  · next hc => exact hc ▸ h.openQuote hpos (.inr (.inl hphase))
  split
  · next hc => exact hc ▸ h.openNested hpos (.inr (.inl hphase))
  split
  · exact h.nextArgument
  next hcomma =>
  split
  · next hc => exact hc ▸ h.close hpos
  next hclose =>
  refine ⟨h.level.moves (.inr hphase) rfl rfl, h.outer_append c, by simp,
    fun _ _ start hstart => ?_⟩
  obtain rfl := Option.some.inj hstart
  rw [hpos]
  exact ⟨[c], ReadSince.here read [c], isWithin_singleton (endsArgument_of_ne hcomma hclose)⟩

theorem TellsArguments.accept (h : r.TellsArguments read) (hpos : r.pos = byteLength read)
    (hstop : isPlace read stop = true) (hle : r.level.argument.valueStart.getD r.pos ≤ stop)
    (hcoherent : r.Coherent) : (r.accept stop c).TellsArguments (read ++ [c]) := by
  unfold Cursor.accept
  split
  · next hphase =>
      split
      · exact ⟨Level.tellsName_of_unnamed rfl, h.outer_append c, by simp, by simp⟩
      · exact h.settles rfl (h.level.stays (by simp [hphase]) (by simp [hphase]))
          (by simp [hphase]) (by simp [hphase])
  · next hphase => exact h.readName hpos (hcoherent.level.fresh hphase).2 hphase
  · next hphase =>
      cases hquotes : r.level.argument.inQuotes with
      | true => exact h.readQuoted hpos hphase hquotes
      | false => exact h.readUnquoted hpos hstop hle hphase hquotes
  · next hphase => exact h.readArgumentName hpos hphase (hcoherent.level.argumentOpen hphase)
  · next hphase => exact h.readAfterName hpos hphase
  · next hphase => exact h.readBeforeValue hpos hphase
  · next hphase =>
      split
      · exact h.nextArgument
      next hcomma =>
      split
      · next hc => exact hc ▸ h.close hpos
      next hclose =>
      exact h.settles rfl
        (h.level.stays (by simp [hphase]) fun _ => endsArgument_of_ne hcomma hclose)
        (by simp [hphase]) (by simp [hphase])

end Steps

end Cursor

open Cursor

namespace Reading

/-! ### Runs -/

private theorem HasRead.isPlace_trimmedPos {r : Reading} {read : List Char} (h : r.HasRead read) :
    isPlace read r.trimmedPos = true := by
  obtain ⟨init, run, htext, hlength, hblank⟩ := h.exists_run
  refine trimmedPos_of_marked h.marked h.isPlace_pos (isPlace_iff.mpr ⟨init, run, htext, ?_⟩)
  rw [h.pos_eq, htext, byteLength_append, byteLength_of_blank hblank, hlength]
  omega

private theorem phase_of_literal_readAll (text : List Char)
    (h : (({} : Reading).readAll text).literal = true) :
    (({} : Reading).readAll text).level.phase = .outside := by
  induction text using List.reverseRecOn with
  | nil => rfl
  | append_singleton text c ih =>
      rw [readAll_append, readAll_cons, readAll_nil] at h ⊢
      rcases literal_step_iff.mp h with hliteral | ⟨rfl, hstart⟩
      · simpa [step, hliteral] using ih hliteral
      · simp [step, hstart.literal, react, accept, hstart.phase, readName, hstart.nameStart,
          hstart.outer, moveTo]

private theorem tellsArguments_readAll (text : List Char) :
    (({} : Reading).readAll text).TellsArguments text := by
  induction text using List.reverseRecOn with
  | nil => exact ⟨Level.tellsName_of_unnamed rfl, by simp, by simp, by simp⟩
  | append_singleton text c ih =>
      rw [readAll_append, readAll_cons, readAll_nil]
      unfold step
      split
      · next hliteral =>
          have hphase := phase_of_literal_readAll text hliteral
          have hlevel := ih.level.stays (c := c) (by simp [hphase]) (by simp [hphase])
          exact { ih.settles rfl hlevel (by simp [hphase]) (by simp [hphase]) with }
      · have hread := hasRead_readAll text
        exact { ih.accept (c := c) hread.pos_eq hread.isPlace_trimmedPos (Nat.le_max_left _ _)
          (coherent_readAll text) with }

/-! ### What is told -/

/-- The reading has left the name of its argument, and the end of the name is not noted. -/
structure LeavesName (r : Reading) : Prop where
  left : r.level.phase ≠ .argumentName
  unnoted : r.level.argument.nameStop = none

section Told

variable {r : Reading} {read rest : List Char} {start : Nat}

private theorem isWithin_iff_value {head value behind : List Char}
    (hsince : ReadSince read start (head ++ (value ++ behind))) (hhead : IsWithin head)
    (hbehind : IsWithin behind) (hsize : byteLength (read ++ rest) < 4294967296)
    (hspan : r.argumentValueSpan =
      some (.ofOffsets (start + byteLength head) (start + byteLength head + byteLength value))) :
    IsWithin (head ++ (value ++ behind)) ↔
      ∃ told, r.argumentValueSpan.map (·.text (read ++ rest)) = some told ∧
        IsWithin told.toList := by
  rw [hspan, Option.map_some, hsince.drop.text_span hsize, isWithin_append, isWithin_append]
  constructor
  · rintro ⟨-, hvalue, -⟩
    exact ⟨_, rfl, by rwa [String.toList_ofList]⟩
  · rintro ⟨told, htold, hvalue⟩
    obtain rfl := Option.some.inj htold
    rw [String.toList_ofList] at hvalue
    exact ⟨hhead, hvalue, hbehind⟩

/-- A name that has been left without a note goes on up to the caret. It stays within its argument
exactly if a value was opened in it that does so. -/
theorem LeavesName.told (h : r.LeavesName) (hopen : r.level.OpenName read start)
    (hread : r.HasRead read) (hsize : byteLength (read ++ rest) < 4294967296) :
    ∃ piece, ReadSince read start piece ∧ RunsOn piece ∧
      (IsWithin piece ↔ ∃ value, r.argumentValueSpan.map (·.text (read ++ rest)) = some value ∧
        IsWithin value.toList) := by
  cases hopen with
  | inName phase => exact absurd phase h.left
  | closed phase since runsOn ends =>
      refine ⟨_, since, runsOn, iff_of_false ?_ (by simp [argumentValueSpan, phase])⟩
      obtain ⟨c, hc, hends⟩ := ends
      exact fun hwithin => absurd (hwithin c hc) (by simp [hends])
  | @inValue head value phase since runsOn within valueStart =>
      have hpos : r.pos = start + byteLength head + byteLength value := by
        rw [hread.pos_eq, since.byteLength_eq, byteLength_append, Nat.add_assoc]
      have hspan : r.argumentValueSpan = some (.ofOffsets (start + byteLength head)
          (start + byteLength head + byteLength value)) := by
        simp [argumentValueSpan, phase, valueStart, hpos]
      rw [← List.append_nil value] at since runsOn
      exact ⟨_, since, runsOn, isWithin_iff_value since within isWithin_nil hsize hspan⟩
  | behindValue phase since runsOn within withinBehind valueStart valueStop =>
      exact ⟨_, since, runsOn, isWithin_iff_value since within withinBehind hsize
        (by simp [argumentValueSpan, phase, valueStart, valueStop])⟩

/-- A name that is told where it has not been left without a note stays within its argument. -/
theorem told_of_tellsArguments (h : r.TellsArguments read) (hread : r.HasRead read)
    (hcoherent : r.Coherent) (hsize : byteLength (read ++ rest) < 4294967296)
    (hstart : r.level.argument.nameStart = some start) (hleaves : ¬ r.LeavesName) :
    ∃ name, r.argumentNameSpan.map (·.text (read ++ rest)) = some name ∧ IsWithin name.toList := by
  by_cases hphase : r.level.phase = .argumentName
  · obtain ⟨word, hsince, hwithin⟩ :=
      h.exists_name hread.pos_eq hphase (hcoherent.level.argumentOpen hphase)
    rw [hstart, Option.getD_some] at hsince
    refine ⟨String.ofList word, ?_, by rwa [String.toList_ofList]⟩
    rw [argumentNameSpan, hstart, Option.map_some, if_pos hphase, hread.pos_eq,
      hsince.byteLength_eq]
    rw [← List.append_nil word] at hsince
    exact congrArg some (hsince.text_span hsize)
  · obtain ⟨stop, hstop⟩ : ∃ stop, r.level.argument.nameStop = some stop :=
      Option.ne_none_iff_exists'.mp fun hnone => hleaves ⟨hphase, hnone⟩
    obtain ⟨word, more, hsince, rfl, hwithin⟩ := h.level.ended start stop hstart hstop
    refine ⟨String.ofList word, ?_, by rwa [String.toList_ofList]⟩
    rw [argumentNameSpan, hstart, Option.map_some, if_neg hphase, hstop, Option.getD_some]
    exact congrArg some (hsince.text_span hsize)

private theorem within_iff_of_tellsArguments (h : r.TellsArguments read) (hread : r.HasRead read)
    (hcoherent : r.Coherent) (hsize : byteLength (read ++ rest) < 4294967296) {name : String}
    (hname : r.argumentNameSpan.map (·.text (read ++ rest)) = some name) :
    (IsWithin name.toList ↔
      (r.LeavesName → ∃ value, r.argumentValueSpan.map (·.text (read ++ rest)) = some value ∧
        IsWithin value.toList)) ∧ (r.LeavesName → RunsOn name.toList) := by
  obtain ⟨start, hstart⟩ : ∃ start, r.level.argument.nameStart = some start := by
    cases hstart : r.level.argument.nameStart with
    | none => simp [argumentNameSpan, hstart] at hname
    | some start => exact ⟨start, rfl⟩
  by_cases hleaves : r.LeavesName
  · obtain ⟨piece, hsince, hruns, hiff⟩ :=
      hleaves.told (h.level.opened start hstart hleaves.unnoted) hread hsize
    rw [argumentNameSpan, hstart, Option.map_some, if_neg hleaves.left, hleaves.unnoted,
      Option.getD_none, hread.pos_eq, hsince.byteLength_eq] at hname
    rw [← List.append_nil piece] at hsince
    obtain rfl := (hsince.text_span hsize).symm.trans (Option.some.inj hname)
    rw [String.toList_ofList, hiff]
    exact ⟨⟨fun hvalue _ => hvalue, fun hvalue => hvalue hleaves⟩, fun _ => hruns⟩
  · obtain ⟨told, htold, hwithin⟩ := told_of_tellsArguments h hread hcoherent hsize hstart hleaves
    obtain rfl := Option.some.inj (htold.symm.trans hname)
    exact ⟨iff_of_true hwithin fun hleft => absurd hleft hleaves, fun hleft => absurd hleft hleaves⟩

end Told

/-- In a text of less than 4 GiB, the name of an argument that is told stays within its argument
unless the reading has left the name without a note of its end. Then the name that is told goes on
over the bracket or the quote behind it up to the caret, and stays within its argument exactly if
this opened a value that does so. Behind the `}` of the extension no value is told. -/
theorem argumentName_within_iff (text : List Char) (hsize : byteLength text < 4294967296)
    (offset : Nat) (name : String)
    (h : (upTo text offset).argumentNameSpan.map (·.text text) = some name) :
    let r := upTo text offset
    ((∀ c ∈ name.toList, endsArgument c = false) ↔
      (r.LeavesName → ∃ value, r.argumentValueSpan.map (·.text text) = some value ∧
        ∀ c ∈ value.toList, endsArgument c = false)) ∧
    (r.LeavesName → ∃ word mark more, name.toList = word ++ mark :: more ∧ word ≠ [] ∧
      (∀ c ∈ word, endsArgument c = false) ∧ mark ∈ ['{', '}', '\x27']) := by
  obtain ⟨rest, htext, -⟩ := exists_takeBytes_append text offset
  have hiff :=
    @within_iff_of_tellsArguments _ _ rest (tellsArguments_readAll (takeBytes text offset))
    (hasRead_readAll _) (coherent_readAll _)
  rw [← htext, ← upTo_eq_readAll] at hiff
  exact hiff hsize h

/-- The text `{A,b'c'}`. -/
private def quotedNameText : List Char := ['{', 'A', ',', 'b', '\x27', 'c', '\x27', '}']

/-- A quote has left the name, and the value in it stays within the argument. -/
theorem argumentName_within_iff_quoted :
    byteLength quotedNameText < 4294967296 ∧
      (upTo quotedNameText 7).argumentNameSpan.map (·.text quotedNameText) = some "b'c'" ∧
      ((∀ c ∈ "b'c'".toList, endsArgument c = false) ↔
        ((upTo quotedNameText 7).LeavesName →
          ∃ value, (upTo quotedNameText 7).argumentValueSpan.map (·.text quotedNameText) =
            some value ∧ ∀ c ∈ value.toList, endsArgument c = false)) := by
  have hsize : byteLength quotedNameText < 4294967296 := by decide
  have htold : (upTo quotedNameText 7).argumentNameSpan.map (·.text quotedNameText) =
      some "b'c'" := by decide
  exact ⟨hsize, htold, (argumentName_within_iff quotedNameText hsize 7 "b'c'" htold).1⟩

/-- Behind the `}` of the extension in `{A,x}` the bracket is told as a part of the name. -/
theorem argumentName_behindClose :
    byteLength ['{', 'A', ',', 'x', '}'] < 4294967296 ∧
      (upTo ['{', 'A', ',', 'x', '}'] 5).argumentNameSpan.map
        (·.text ['{', 'A', ',', 'x', '}']) = some "x\x7d" ∧
      ¬ ∀ c ∈ "x\x7d".toList, endsArgument c = false :=
  ⟨by decide, by decide, fun hwithin => absurd (hwithin '}' (by decide)) (by decide)⟩

end Reading

end XamlAssist.Extension
