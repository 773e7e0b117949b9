import XamlAssist.Proofs.Extension.Reading

/-!
# Levels that fit together

Any text at all may lead to a reading. Its levels always fit together: those set aside wait for the
end of a nested value, their names start one behind the other, and only a value has quotes around
the place that is read. What holds around the current level is kept apart from what holds of it, for
most characters change the current level only. The names and values that a reading tells are then
pieces of the text read so far. Main statement: `sound_upTo`.
-/

namespace XamlAssist.Extension

open Text

/-! ### One level -/

/-- Whatever ends, ends behind its start. -/
structure Level.Ordered (level : Level) : Prop where
  name : ∀ stop, level.nameStop = some stop → level.nameStart ≤ stop
  argument : ∀ start stop, level.argument.nameStart = some start →
    level.argument.nameStop = some stop → start ≤ stop
  value : ∀ start stop, level.argument.valueStart = some start →
    level.argument.valueStop = some stop → start ≤ stop

/-- What the phase of a level tells about its offsets. -/
structure Level.Coherent (level : Level) : Prop extends level.Ordered where
  quotes : level.argument.inQuotes = true →
    level.phase = .value ∧ level.argument.valueStart.isSome = true
  fresh : level.phase = .name → level.nameStop = none ∧ level.argument = {}
  named : level.phase ≠ .outside → level.phase ≠ .name → level.nameStop.isSome = true
  argumentOpen : level.phase = .argumentName → level.argument.nameStop = none
  valueOpen : level.argument.valueStop.isSome = true →
    level.phase = .outside ∨ level.phase = .afterValue

/-- The level waits for the end of a nested extension in the place of its value. -/
structure Level.IsSetAside (level : Level) : Prop where
  phase : level.phase = .value
  quotes : level.argument.inQuotes = false
  nameStop : level.nameStop.isSome = true
  valueStart : level.argument.valueStart.isSome = true

namespace Level

variable {level : Level}

private theorem Ordered.of_argument_eq (hargument : level.argument = {})
    (hname : ∀ stop, level.nameStop = some stop → level.nameStart ≤ stop) : level.Ordered where
  name := hname
  argument := by simp [hargument]
  value := by simp [hargument]

private theorem coherent_of_name (hphase : level.phase = .name) (hstop : level.nameStop = none)
    (hargument : level.argument = {}) : level.Coherent where
  toOrdered := .of_argument_eq hargument (by simp [hstop])
  quotes := by simp [hargument]
  fresh _ := ⟨hstop, hargument⟩
  named _ hname := absurd hphase hname
  argumentOpen := by simp [hargument]
  valueOpen := by simp [hargument]

private theorem coherent_of_outside (hphase : level.phase = .outside) (hordered : level.Ordered)
    (hquotes : level.argument.inQuotes = false) : level.Coherent where
  toOrdered := hordered
  quotes := by simp [hquotes]
  fresh := by simp [hphase]
  named houtside := absurd hphase houtside
  argumentOpen := by simp [hphase]
  valueOpen _ := .inl hphase

private theorem coherent_of_named (hphase : level.phase ≠ .name)
    (hnamed : level.nameStop.isSome = true)
    (hname : ∀ stop, level.nameStop = some stop → level.nameStart ≤ stop)
    (hargument : ∀ start stop, level.argument.nameStart = some start →
      level.argument.nameStop = some stop → start ≤ stop)
    (hvalue : level.argument.valueStop = none)
    (hquotes : level.argument.inQuotes = true →
      level.phase = .value ∧ level.argument.valueStart.isSome = true)
    (hopen : level.phase = .argumentName → level.argument.nameStop = none) : level.Coherent where
  name := hname
  argument := hargument
  value := by simp [hvalue]
  quotes := hquotes
  fresh hname := absurd hname hphase
  named _ _ := hnamed
  argumentOpen := hopen
  valueOpen := by simp [hvalue]

private theorem Coherent.inQuotes_eq_false (h : level.Coherent) (hphase : level.phase ≠ .value) :
    level.argument.inQuotes = false :=
  Bool.eq_false_iff.mpr fun hquotes => hphase (h.quotes hquotes).1

private theorem Coherent.valueStop_eq_none (h : level.Coherent) (houtside : level.phase ≠ .outside)
    (hafter : level.phase ≠ .afterValue) : level.argument.valueStop = none := by
  cases hstop : level.argument.valueStop with
  | none => rfl
  | some stop =>
      rcases h.valueOpen (by simp [hstop]) with hphase | hphase
      · exact absurd hphase houtside
      · exact absurd hphase hafter

private theorem Coherent.before_value (h : level.Coherent)
    (hphase : level.phase = .argumentName ∨ level.phase = .afterName ∨
      level.phase = .beforeValue) :
    level.argument.inQuotes = false ∧ level.nameStop.isSome = true ∧
      level.argument.valueStop = none := by
  have hother : level.phase ≠ .outside ∧ level.phase ≠ .name ∧ level.phase ≠ .value ∧
      level.phase ≠ .afterValue := by
    rcases hphase with hphase | hphase | hphase <;> simp [hphase]
  obtain ⟨houtside, hname, hvalue, hafter⟩ := hother
  exact ⟨h.inQuotes_eq_false hvalue, h.named houtside hname, h.valueStop_eq_none houtside hafter⟩

theorem IsSetAside.goOnAt (h : level.IsSetAside) (hordered : level.Ordered) {pos : Nat}
    (hstart : ∀ start, level.argument.valueStart = some start → start ≤ pos) :
    (level.goOnAt pos).Coherent where
  name := hordered.name
  argument := hordered.argument
  value start stop hvalue hstop := by
    obtain rfl : pos + 1 = stop := Option.some.inj hstop
    exact Nat.le_succ_of_le (hstart start hvalue)
  quotes hquotes := absurd (h.quotes.symm.trans hquotes) (by simp)
  fresh := by simp [Level.goOnAt]
  named _ _ := h.nameStop
  argumentOpen := by simp [Level.goOnAt]
  valueOpen _ := .inr rfl

end Level

namespace Cursor

/-! ### What holds around the current level -/

structure Around (r : Cursor) : Prop where
  setAside : ∀ level ∈ r.outer, level.IsSetAside ∧ level.Ordered
  decreasing : (r.level.nameStart :: r.outer.map Level.nameStart).Pairwise (· > ·)

structure Coherent (r : Cursor) : Prop extends r.Around where
  level : r.level.Coherent
  outside : r.level.phase = .outside → r.outer = []

section Steps

variable {r : Cursor} {stop : Nat} {c : Char}

private theorem Around.coherent (h : r.Around) (hlevel : r.level.Coherent)
    (hphase : r.level.phase ≠ .outside) : r.Coherent :=
  { h with level := hlevel, outside := fun houtside => absurd houtside hphase }

private theorem Marked.nameStart_le (h : r.Marked (· ≤ r.pos)) :
    ∀ start ∈ r.level.nameStart :: r.outer.map Level.nameStart, start ≤ r.pos := by
  intro start hstart
  rcases List.mem_cons.mp hstart with rfl | hstart
  · exact h.level.nameStart
  · obtain ⟨level, hlevel, rfl⟩ := List.mem_map.mp hstart
    exact (h.outer level hlevel).nameStart

theorem Around.close (h : r.Around) (hmarked : r.Marked (· ≤ r.pos)) (hordered : r.level.Ordered)
    (hquotes : r.level.argument.inQuotes = false) : r.close.Coherent := by
  unfold Cursor.close
  split
  · next level outer houter =>
      obtain ⟨hset, hlevel⟩ := h.setAside level (by simp [houter])
      have hstart := (hmarked.outer level (by simp [houter])).valueStart
      have haround := h.decreasing
      rw [houter, List.map_cons] at haround
      refine Around.coherent ⟨fun other hother => ?_, haround.of_cons⟩ (hset.goOnAt hlevel hstart)
        (by simp)
      exact h.setAside other (by simp [houter, hother])
  · next houter =>
      exact { h with
        level := Level.coherent_of_outside rfl { hordered with } hquotes
        outside := fun _ => houter }

theorem Around.nextArgument (h : r.Around)
    (hname : ∀ stop, r.level.nameStop = some stop → r.level.nameStart ≤ stop)
    (hnamed : r.level.nameStop.isSome = true) : r.nextArgument.Coherent := by
  refine Around.coherent { h with } ?_ (by simp [Cursor.nextArgument])
  exact Level.coherent_of_named (by simp [Cursor.nextArgument]) hnamed hname
    (by simp [Cursor.nextArgument]) rfl (by simp [Cursor.nextArgument]) fun _ => rfl

theorem Coherent.openNested (h : r.Coherent) (hmarked : r.Marked (· ≤ r.pos))
    (hquotes : r.level.argument.inQuotes = false) (hnamed : r.level.nameStop.isSome = true)
    (hopen : r.level.argument.valueStop = none) : r.openNested.Coherent := by
  refine Around.coherent ⟨?_, ?_⟩ (Level.coherent_of_name rfl rfl rfl)
    (by simp [Cursor.openNested])
  · intro level hlevel
    rcases List.mem_cons.mp hlevel with rfl | hlevel
    · refine ⟨⟨rfl, hquotes, hnamed, rfl⟩, h.level.name, h.level.argument, ?_⟩
      intro start stop _ hstop
      exact absurd (hopen.symm.trans hstop) (by simp)
    · exact h.setAside level hlevel
  · exact List.pairwise_cons.mpr
      ⟨fun start hstart => Nat.lt_succ_of_le (hmarked.nameStart_le start hstart), h.decreasing⟩

theorem Coherent.openQuote (h : r.Coherent) (hnamed : r.level.nameStop.isSome = true)
    (hopen : r.level.argument.valueStop = none) : r.openQuote.Coherent := by
  refine Around.coherent { h.toAround with } ?_ (by simp [Cursor.openQuote])
  exact Level.coherent_of_named (by simp [Cursor.openQuote]) hnamed h.level.name h.level.argument
    hopen (fun _ => ⟨rfl, rfl⟩) (by simp [Cursor.openQuote])

private theorem endValue_ordered (h : r.level.Ordered)
    (hstop : ∀ start, r.level.argument.valueStart = some start → start ≤ stop) :
    (r.endValue stop).level.Ordered where
  name := h.name
  argument := h.argument
  value start stop hstart hend := by
    obtain rfl := Option.some.inj hend
    exact hstop start hstart

private theorem endName_ordered (h : r.level.Ordered) (hmarked : r.Marked (· ≤ r.pos)) :
    r.endName.level.Ordered where
  name stop hstop := by
    obtain rfl := Option.some.inj hstop
    exact hmarked.level.nameStart
  argument := h.argument
  value := h.value

/-! ### One character -/

theorem Coherent.readName (h : r.Coherent) (hmarked : r.Marked (· ≤ r.pos))
    (hphase : r.level.phase = .name) : (r.readName c).Coherent := by
  obtain ⟨hstop, hargument⟩ := h.level.fresh hphase
  have hordered := endName_ordered h.level.toOrdered hmarked
  have haround : r.endName.Around := { h.toAround with }
  unfold Cursor.readName
  dsimp only
  split
  · next hliteral =>
      simp only [Bool.and_eq_true, List.isEmpty_iff] at hliteral
      exact { h.toAround with
        level := Level.coherent_of_outside rfl { h.level.toOrdered with } (by
          simp [Cursor.moveTo, hargument])
        outside := fun _ => hliteral.2 }
  split
  · split
    · refine Around.coherent ⟨h.setAside, ?_⟩ (Level.coherent_of_name hphase hstop hargument)
        (by simp [hphase])
      obtain ⟨hlast, hrest⟩ := List.pairwise_cons.mp h.decreasing
      refine List.pairwise_cons.mpr ⟨fun start hstart => ?_, hrest⟩
      have hlt := hlast start hstart
      have hle := hmarked.level.nameStart
      show start < r.pos + 1
      omega
    · exact Around.coherent { haround with }
        (Level.coherent_of_named (by simp [Cursor.moveTo]) rfl hordered.name
          (by simp) rfl (by simp) (by simp [Cursor.moveTo]))
        (by simp [Cursor.moveTo])
  split
  · refine haround.close (hmarked.endName (Nat.le_refl _)) hordered ?_
    simp [Cursor.endName, hargument]
  split
  · exact haround.nextArgument hordered.name rfl
  · exact h

theorem Coherent.readQuoted (h : r.Coherent) (hmarked : r.Marked (· ≤ r.pos))
    (hphase : r.level.phase = .value) (hquotes : r.level.argument.inQuotes = true) :
    (r.readValue stop c).Coherent := by
  unfold Cursor.readValue
  dsimp only
  rw [if_pos hquotes]
  split
  · refine Around.coherent { h.toAround with } ?_ (by simp)
    exact {
      name := h.level.name
      argument := h.level.argument
      value := fun start stop hstart hstop => by
        obtain rfl := Option.some.inj hstop
        exact hmarked.level.valueStart start hstart
      quotes := by simp
      fresh := by simp
      named := fun _ _ => h.level.named (by simp [hphase]) (by simp [hphase])
      argumentOpen := by simp
      valueOpen := fun _ => .inr rfl }
  · exact h

theorem Coherent.nameFromValue (h : r.Coherent) (hnamed : r.level.nameStop.isSome = true) :
    (r.nameFromValue stop).Coherent := by
  refine Around.coherent { h.toAround with } ?_ (by simp [Cursor.nameFromValue])
  refine Level.coherent_of_named (by simp [Cursor.nameFromValue]) hnamed h.level.name ?_ rfl
    (by simp [Cursor.nameFromValue]) (by simp [Cursor.nameFromValue])
  intro start stop hstart hstop
  obtain rfl := Option.some.inj hstart
  obtain rfl := Option.some.inj hstop
  exact Nat.le_max_right _ _

theorem Coherent.readUnquoted (h : r.Coherent) (hmarked : r.Marked (· ≤ r.pos))
    (hle : stop ≤ r.pos)
    (hstop : ∀ start, r.level.argument.valueStart = some start → start ≤ stop)
    (hphase : r.level.phase = .value) (hquotes : r.level.argument.inQuotes = false) :
    (r.readValue stop c).Coherent := by
  have hnamed := h.level.named (by simp [hphase]) (by simp [hphase])
  have hopen := h.level.valueStop_eq_none (by simp [hphase]) (by simp [hphase])
  have hended : (r.endValue stop).Marked (· ≤ r.pos) := hmarked.endValue hle
  have haround : (r.endValue stop).Around := { h.toAround with }
  unfold Cursor.readValue
  dsimp only
  rw [if_neg (by simp [hquotes])]
  split
  · exact haround.nextArgument h.level.name hnamed
  split
  · exact haround.close hended (endValue_ordered h.level.toOrdered hstop) hquotes
  split
  · exact h.openNested hmarked hquotes hnamed hopen
  split
  · exact h.nameFromValue hnamed
  split
  · exact h.openQuote hnamed hopen
  split
  · exact h
  · refine Around.coherent { h.toAround with } ?_ (by simp [Cursor.startValue, hphase])
    exact Level.coherent_of_named (by simp [Cursor.startValue, hphase]) hnamed h.level.name
      h.level.argument hopen (by simp [Cursor.startValue, hquotes])
      (by simp [Cursor.startValue, hphase])

theorem Coherent.readArgumentName (h : r.Coherent) (hmarked : r.Marked (· ≤ r.pos))
    (hphase : r.level.phase = .argumentName) : (r.readArgumentName c).Coherent := by
  obtain ⟨hquotes, hnamed, hopen⟩ := h.level.before_value (by simp [hphase])
  have hstop := h.level.argumentOpen hphase
  unfold Cursor.readArgumentName
  dsimp only
  split
  · split
    · refine Around.coherent { h.toAround with } ?_ (by simp)
      refine Level.coherent_of_named (by simp) hnamed h.level.name ?_ hopen (by simp [hquotes])
        (by simp)
      intro start stop hstart hstop
      obtain rfl := Option.some.inj hstop
      exact hmarked.level.argumentStart start hstart
    · exact h
  split
  · refine Around.coherent { h.toAround with } ?_ (by simp)
    refine Level.coherent_of_named (by simp) hnamed h.level.name ?_ hopen (by simp [hquotes])
      (by simp)
    intro start stop hstart hstop
    obtain rfl := Option.some.inj hstart
    obtain rfl := Option.some.inj hstop
    exact Nat.le_max_right _ _
  split
  · exact h.toAround.nextArgument h.level.name hnamed
  split
  · exact h.toAround.close hmarked h.level.toOrdered hquotes
  split
  · exact h.openNested hmarked hquotes hnamed hopen
  split
  · exact h.openQuote hnamed hopen
  · refine Around.coherent { h.toAround with } ?_ (by simp [hphase])
    exact Level.coherent_of_named (by simp [hphase]) hnamed h.level.name (by simp [hstop]) hopen
      (by simp [hquotes]) fun _ => hstop

theorem Coherent.readAfterName (h : r.Coherent) (hmarked : r.Marked (· ≤ r.pos))
    (hphase : r.level.phase = .afterName) : (r.readAfterName c).Coherent := by
  obtain ⟨hquotes, hnamed, hopen⟩ := h.level.before_value (by simp [hphase])
  unfold Cursor.readAfterName
  split
  · exact h
  split
  · refine Around.coherent { h.toAround with } ?_ (by simp [Cursor.moveTo])
    exact Level.coherent_of_named (by simp [Cursor.moveTo]) hnamed h.level.name h.level.argument
      hopen (by simp [Cursor.moveTo, hquotes]) (by simp [Cursor.moveTo])
  split
  · exact h.toAround.nextArgument h.level.name hnamed
  split
  · exact h.toAround.close hmarked h.level.toOrdered hquotes
  · refine Around.coherent { h.toAround with } ?_ (by simp)
    exact Level.coherent_of_named (by simp) hnamed h.level.name (by simp) rfl (by simp) fun _ => rfl

theorem Coherent.readBeforeValue (h : r.Coherent) (hmarked : r.Marked (· ≤ r.pos))
    (hphase : r.level.phase = .beforeValue) : (r.readBeforeValue c).Coherent := by
  obtain ⟨hquotes, hnamed, hopen⟩ := h.level.before_value (by simp [hphase])
  unfold Cursor.readBeforeValue
  split
  · exact h
  split
  · exact h.openQuote hnamed hopen
  split
  · exact h.openNested hmarked hquotes hnamed hopen
  split
  · exact h.toAround.nextArgument h.level.name hnamed
  split
  · exact h.toAround.close hmarked h.level.toOrdered hquotes
  · refine Around.coherent { h.toAround with } ?_ (by simp)
    exact Level.coherent_of_named (by simp) hnamed h.level.name h.level.argument hopen
      (by simp [hquotes]) (by simp)

theorem Coherent.accept (h : r.Coherent) (hmarked : r.Marked (· ≤ r.pos)) (hle : stop ≤ r.pos)
    (hstop : ∀ start, r.level.argument.valueStart = some start → start ≤ stop) :
    (r.accept stop c).Coherent := by
  unfold Cursor.accept
  split
  · split
    · next hopen =>
        simp only [Bool.and_eq_true, List.isEmpty_iff] at hopen
        refine Around.coherent ⟨h.setAside, ?_⟩ (Level.coherent_of_name rfl rfl rfl) (by simp)
        simp [hopen.2]
    · exact h
  · next hphase => exact h.readName hmarked hphase
  · next hphase =>
      cases hquotes : r.level.argument.inQuotes with
      | true => exact h.readQuoted hmarked hphase hquotes
      | false => exact h.readUnquoted hmarked hle hstop hphase hquotes
  · next hphase => exact h.readArgumentName hmarked hphase
  · next hphase => exact h.readAfterName hmarked hphase
  · next hphase => exact h.readBeforeValue hmarked hphase
  · next hphase =>
      have hnamed := h.level.named (by simp [hphase]) (by simp [hphase])
      have hquotes := h.level.inQuotes_eq_false (by simp [hphase])
      split
      · exact h.toAround.nextArgument h.level.name hnamed
      · split
        · exact h.toAround.close hmarked h.level.toOrdered hquotes
        · exact h

end Steps

end Cursor

open Cursor

namespace Reading

/-! ### Runs -/

private theorem le_trimmedPos {r : Reading} {start : Nat}
    (h : r.level.argument.valueStart = some start) :
    start ≤ r.trimmedPos := by
  rw [trimmedPos, h, Option.getD_some]
  exact Nat.le_max_left _ _

private theorem coherent_step {r : Reading} (h : r.Coherent) (hmarked : r.Marked (· ≤ r.pos))
    (c : Char) :
    (r.step c).Coherent := by
  unfold step
  split
  · exact { h with }
  · have hle := trimmedPos_of_marked hmarked (Nat.le_refl _) (Nat.sub_le _ _)
    have hpass : (r.react c).Coherent := h.accept hmarked hle fun _ => le_trimmedPos
    exact { hpass with }

theorem HasRead.marked_le {r : Reading} {text : List Char} (h : r.HasRead text) :
    r.Marked (· ≤ r.pos) :=
  h.marked.mono fun _ hplace => h.pos_eq ▸ le_of_isPlace hplace

private theorem coherent_readAll_of_hasRead {r : Reading} {text : List Char} (h : r.Coherent)
    (hread : r.HasRead text) (s : List Char) : (r.readAll s).Coherent := by
  induction s generalizing r text with
  | nil => exact h
  | cons c s ih => exact ih (coherent_step h hread.marked_le c) (hread.step c)

theorem coherent_readAll (text : List Char) : (({} : Reading).readAll text).Coherent := by
  have hstart : ({} : Reading).Coherent := {
    setAside := by simp
    decreasing := by simp
    level := Level.coherent_of_outside rfl (.of_argument_eq rfl (by simp)) rfl
    outside := fun _ => rfl }
  exact coherent_readAll_of_hasRead hstart (hasRead_readAll []) text

/-! ### What a reading tells -/

/-- The levels of a reading fit together, and the names and values that it tells are pieces of the
text up to its position. -/
structure Sound (r : Reading) (text : List Char) : Prop where
  place : isPlace text r.pos = true
  outside : r.level.phase = .outside → r.nestingLevel = 0
  quotes : ∀ level ∈ r.level :: r.outer, level.argument.inQuotes = true →
    level.phase = .value ∧ level.argument.valueStart.isSome = true
  setAside : ∀ level ∈ r.outer, level.IsSetAside
  increasing : ((r.level :: r.outer).reverse.map Level.nameStart).Pairwise (· < ·)
  extensionName : ∀ span, r.extensionNameSpan = some span →
    span.Stands text (fun _ _ => True) ∧ span.stop.toNat ≤ r.pos
  argumentName : ∀ span, r.argumentNameSpan = some span →
    span.Stands text (fun _ _ => True) ∧ span.stop.toNat ≤ r.pos
  argumentValue : ∀ span, r.argumentValueSpan = some span →
    span.Stands text (fun _ _ => True) ∧ span.stop.toNat ≤ r.pos

section Sound

variable {r : Reading} {before rest : List Char}

theorem HasRead.isPlace_pos (h : r.HasRead before) : isPlace before r.pos = true :=
  isPlace_iff.mpr ⟨before, [], by simp, h.pos_eq.symm⟩

private theorem HasRead.stands_getD (h : r.HasRead before)
    (hsize : byteLength (before ++ rest) < 4294967296) {start : Nat}
    (hstart : isPlace before start = true) (stop : Option Nat)
    (hstop : ∀ m, stop = some m → start ≤ m ∧ isPlace before m = true) :
    (Span.ofOffsets start (stop.getD r.pos)).Stands (before ++ rest) (fun _ _ => True) ∧
      (Span.ofOffsets start (stop.getD r.pos)).stop.toNat ≤ r.pos := by
  have hend : start ≤ stop.getD r.pos ∧ isPlace before (stop.getD r.pos) = true := by
    cases stop with
    | none => exact ⟨h.pos_eq ▸ le_of_isPlace hstart, h.isPlace_pos⟩
    | some m => exact hstop m rfl
  rw [h.pos_eq] at hend ⊢
  exact Span.stands_of_isPlace hsize hstart hend.2 hend.1

theorem HasRead.extensionName (h : r.HasRead before) (hcoherent : r.Coherent)
    (hsize : byteLength (before ++ rest) < 4294967296) {span : Span}
    (hspan : r.extensionNameSpan = some span) :
    span.Stands (before ++ rest) (fun _ _ => True) ∧ span.stop.toNat ≤ r.pos := by
  unfold extensionNameSpan at hspan
  split at hspan
  · simp at hspan
  · obtain rfl := Option.some.inj hspan
    refine h.stands_getD hsize h.marked.level.nameStart _ fun stop hstop => ?_
    exact ⟨hcoherent.level.name stop hstop, h.marked.level.nameStop stop hstop⟩

theorem HasRead.argumentName (h : r.HasRead before) (hcoherent : r.Coherent)
    (hsize : byteLength (before ++ rest) < 4294967296) {span : Span}
    (hspan : r.argumentNameSpan = some span) :
    span.Stands (before ++ rest) (fun _ _ => True) ∧ span.stop.toNat ≤ r.pos := by
  obtain ⟨start, hstart, rfl⟩ := Option.map_eq_some_iff.mp hspan
  have hplace := h.marked.level.argumentStart start hstart
  split
  · exact h.stands_getD hsize hplace none (by simp)
  · refine h.stands_getD hsize hplace _ fun stop hstop => ?_
    exact ⟨hcoherent.level.argument start stop hstart hstop,
      h.marked.level.argumentStop stop hstop⟩

private theorem HasRead.argumentValue (h : r.HasRead before) (hcoherent : r.Coherent)
    (hsize : byteLength (before ++ rest) < 4294967296) {span : Span}
    (hspan : r.argumentValueSpan = some span) :
    span.Stands (before ++ rest) (fun _ _ => True) ∧ span.stop.toNat ≤ r.pos := by
  unfold argumentValueSpan at hspan
  dsimp only at hspan
  split at hspan
  · obtain rfl := Option.some.inj hspan
    have hplace : isPlace before (r.level.argument.valueStart.getD r.pos) = true := by
      cases hstart : r.level.argument.valueStart with
      | none => exact h.isPlace_pos
      | some start => exact h.marked.level.valueStart start hstart
    exact h.stands_getD hsize hplace none (by simp)
  · obtain ⟨start, hstart, rfl⟩ := Option.map_eq_some_iff.mp hspan
    refine h.stands_getD hsize (h.marked.level.valueStart start hstart) _ fun stop hstop => ?_
    exact ⟨hcoherent.level.value start stop hstart hstop, h.marked.level.valueStop stop hstop⟩
  · simp at hspan

theorem HasRead.sound (h : r.HasRead before) (hcoherent : r.Coherent)
    (hsize : byteLength (before ++ rest) < 4294967296) : r.Sound (before ++ rest) where
  place := isPlace_append_left h.isPlace_pos rest
  outside hphase := List.length_eq_zero_iff.mpr (hcoherent.outside hphase)
  quotes level hlevel hquotes := by
    rcases List.mem_cons.mp hlevel with rfl | hlevel
    · exact hcoherent.level.quotes hquotes
    · exact absurd ((hcoherent.setAside level hlevel).1.quotes.symm.trans hquotes) (by simp)
  setAside level hlevel := (hcoherent.setAside level hlevel).1
  increasing := by
    rw [List.map_reverse, List.map_cons, List.pairwise_reverse]
    exact hcoherent.decreasing
  extensionName _ hspan := h.extensionName hcoherent hsize hspan
  argumentName _ hspan := h.argumentName hcoherent hsize hspan
  argumentValue _ hspan := h.argumentValue hcoherent hsize hspan

end Sound

/-- Up to any offset of a text of less than 4 GiB, the levels of the reading fit together, and the
names and values that it tells are pieces of what has been read. -/
theorem sound_upTo (text : List Char) (hsize : byteLength text < 4294967296) (offset : Nat) :
    (upTo text offset).Sound text := by
  obtain ⟨rest, hrest⟩ := takeBytes_isPrefix text offset
  have hread := hasRead_readAll (takeBytes text offset)
  have hsound : Sound _ (takeBytes text offset ++ rest) :=
    hread.sound (coherent_readAll _) (by rwa [hrest])
  rwa [hrest, ← upTo_eq_readAll] at hsound

/-- The text `{A B={é 'x`. -/
private def quotedText : List Char := ['{', 'A', ' ', 'B', '=', '{', 'é', ' ', '\x27', 'x']

/-- Inside the quotes of a nested value. -/
theorem sound_upTo_quoted :
    (upTo quotedText 20).outer.length = 1 ∧
      (upTo quotedText 20).argumentValueSpan = some ⟨10, 11⟩ ∧
      (upTo quotedText 20).Sound quotedText :=
  ⟨by decide, by decide, sound_upTo quotedText (by decide) 20⟩

end Reading

end XamlAssist.Extension
