import XamlAssist.Selector.Statement

/-!
# Reading a selector to its end

Main statement: `advances_step`, every statement takes at least one character, ends the selector,
or gives way to one of lower rank. So reading ends on every text.
-/

namespace XamlAssist.Selector

open Text

/-- The rank of a statement before the text `rest`. A statement that takes no character gives way
to one of lower rank. A combinator stands before a blank or a `>`; elsewhere it would have to give
way to what follows it. -/
def Statement.rank (statement : Statement) (rest : List Char) : Nat :=
  match statement with
  | .function _ => 4
  | .start | .afterName => 3
  | .middle => 2
  | .combinator => if rest.head?.any fun c => c = '>' || isBlank c then 1 else 4
  | .template | .typeName => 1
  | _ => 0

namespace Reading

@[simp, grind =] theorem note_rest (r : Reading) (change : Components → Components) :
    (r.note change).rest = r.rest := rfl

private theorem skipBlanks_suffix (r : Reading) :
    r.skipBlanks.rest <:+ r.rest := skipWhile_suffix isBlank r

private theorem skipBlanks_rest_of_not {r : Reading} (h : ¬ r.peek.any isBlank) :
    r.skipBlanks.rest = r.rest := by
  unfold peek at h
  cases hr : r.rest with
  | nil => simp [skipBlanks, skipWhile, hr]
  | cons c cs => simp_all [skipBlanks, skipWhile]

/-! ### What a step takes -/

/-- A step leaves an end of the text. If it goes on, it ends the selector, has taken some of the
text, or gives way to a statement of lower rank. -/
structure Advances (r : Reading) (statement : Statement) (s : Step) : Prop where
  suffix : s.1.rest <:+ r.rest
  descends : ∀ following, s.2 = some following →
    following = .done ∨ r.Passes s.1 ∨ following.rank s.1.rest < statement.rank r.rest

section Advances

variable {r next : Reading} {statement following : Statement} {s : Step}

private theorem advances_fault (h : next.rest <:+ r.rest) : r.Advances statement next.fault where
  suffix := h
  descends _ hnone := absurd hnone.symm (Option.some_ne_none _)

private theorem advances_done (h : next.rest <:+ r.rest) :
    r.Advances statement (next.goOn .done) where
  suffix := h
  descends _ hsome := .inl (Option.some.inj hsome).symm

private theorem advances_lower (h : next.rest <:+ r.rest)
    (hrank : following.rank next.rest < statement.rank r.rest) :
    r.Advances statement (next.goOn following) where
  suffix := h
  descends _ hsome := .inr (.inr (Option.some.inj hsome ▸ hrank))

private theorem Passes.advances (h : r.Passes next) (hs : s.1.rest <:+ next.rest) :
    r.Advances statement s where
  suffix := (h.to_suffix hs).suffix
  descends _ _ := .inr (.inl (h.to_suffix hs))

end Advances

private theorem advances_readStart [IdentifierTables] (r : Reading) :
    r.Advances .start r.readStart := by
  have hblanks : r.skipBlanks.rest <:+ r.rest := skipBlanks_suffix r
  unfold readStart
  dsimp only
  split
  · split
    · exact advances_fault hblanks
    · exact advances_done hblanks
  next c hpeek =>
  have hbump : r.Passes r.skipBlanks.startSegment.bump :=
    (passes_bump (r := r.skipBlanks.startSegment) hpeek).of_suffix hblanks
  split
  · exact hbump.advances (List.suffix_refl _)
  split
  · exact hbump.advances (List.suffix_refl _)
  split
  · exact hbump.advances (List.suffix_refl _)
  split
  · exact hbump.advances (List.suffix_refl _)
  split
  · exact advances_lower hblanks (Nat.lt_of_sub_eq_succ rfl)
  · exact advances_fault hblanks

private theorem advances_readMiddle (r : Reading) : r.Advances .middle r.readMiddle := by
  have hsame : r.rest <:+ r.rest := List.suffix_refl _
  unfold readMiddle
  split
  · split
    · exact advances_done hsame
    · exact advances_fault hsame
  next c hpeek =>
  have hbump : r.Passes r.bump := passes_bump hpeek
  have hsegment : r.Passes r.startSegment.bump := passes_bump (r := r.startSegment) hpeek
  split
  · exact hsegment.advances (List.suffix_refl _)
  split
  · exact hsegment.advances (List.suffix_refl _)
  split
  · exact hsegment.advances (List.suffix_refl _)
  split
  · exact hsegment.advances (List.suffix_refl _)
  split
  · exact advances_lower hsame (Nat.lt_of_sub_eq_succ rfl)
  split
  · next hbetween =>
      have hhead : r.rest.head?.any (fun c => c = '>' || isBlank c) = true := by
        rw [show r.rest.head? = some c from hpeek]
        exact hbetween
      exact advances_lower hsame (by simp [Statement.rank, hhead])
  split
  · exact hbump.advances (List.suffix_refl _)
  split
  · exact hbump.advances (List.suffix_refl _)
  · exact advances_fault hsame

private theorem advances_readAfterName (r : Reading) : r.Advances .afterName r.readAfterName := by
  unfold readAfterName
  split
  · next hpeek =>
      have hsegment : r.Passes r.startSegment.bump := passes_bump (r := r.startSegment) hpeek
      exact hsegment.advances (List.suffix_refl _)
  · exact advances_lower (List.suffix_refl _) (Nat.lt_of_sub_eq_succ rfl)

private theorem rank_combinator {r : Reading} (hblank : ¬ r.peek.any isBlank = true)
    (hgt : r.peek ≠ some '>') : Statement.combinator.rank r.rest = 4 := by
  unfold peek at hblank hgt
  cases hrest : r.rest with
  | nil => simp [Statement.rank]
  | cons c rest => simp_all [Statement.rank]

/-- Blanks before a combinator are taken, and so is a `>`. Elsewhere the rank of the combinator is
above that of every statement it gives way to. -/
theorem advances_readCombinator (r : Reading) : r.Advances .combinator r.readCombinator := by
  have hblanks : r.skipBlanks.rest <:+ r.rest := skipBlanks_suffix r
  unfold readCombinator
  dsimp only
  by_cases hblank : r.peek.any isBlank = true
  · have hskip : r.Passes r.skipBlanks := passes_skipWhile hblank
    split
    · exact hskip.advances ((skipBlanks_suffix _).trans (bump_suffix _))
    all_goals exact hskip.advances (List.suffix_refl _)
  have hpeek : r.skipBlanks.peek = r.peek := congrArg List.head? (skipBlanks_rest_of_not hblank)
  by_cases hgt : r.peek = some '>'
  · rw [← hpeek] at hgt
    have hbump : r.Passes r.skipBlanks.bump := (passes_bump hgt).of_suffix hblanks
    rw [hgt]
    exact hbump.advances (skipBlanks_suffix r.skipBlanks.bump)
  · have hrank : Statement.combinator.rank r.rest = 4 := rank_combinator hblank hgt
    split
    · next hfound => exact absurd (hpeek ▸ hfound) hgt
    all_goals exact advances_lower hblanks (by rw [hrank]; exact Nat.lt_of_sub_eq_succ rfl)

private theorem advances_readFunction (r : Reading) (function : Function) :
    r.Advances (.function function) (r.readFunction function) := by
  cases function <;>
    exact advances_lower (List.suffix_refl _) (Nat.lt_of_sub_eq_succ rfl)

section Components

variable (r : Reading) (statement : Statement)

private theorem advances_readArguments : r.Advances statement r.readArguments := by
  unfold readArguments
  split
  · exact advances_fault (List.suffix_refl _)
  next span inner next htake =>
  split
  · exact (passes_takeThrough htake).advances (List.suffix_refl _)
  · exact advances_fault (List.suffix_refl _)

private theorem advances_readValue : r.Advances statement r.readValue := by
  unfold readValue
  split
  · exact advances_fault (List.suffix_refl _)
  · next htake => exact (passes_takeThrough htake).advances (List.suffix_refl _)

private theorem advances_readTemplate : r.Advances statement r.readTemplate := by
  have hsame : r.startSegment.rest <:+ r.rest := List.suffix_refl _
  unfold readTemplate
  dsimp only
  split
  · exact advances_fault hsame
  · next next htake =>
      have hnext : r.Passes next :=
        (passes_takeText (List.cons_ne_nil _ _) htake).of_suffix hsame
      exact hnext.advances (List.suffix_refl _)

private theorem readEquals_suffix : r.readEquals.1.rest <:+ r.rest := by
  unfold readEquals
  dsimp only
  split
  · exact (bump_suffix _).trans (skipBlanks_suffix r)
  · exact skipBlanks_suffix r

variable [IdentifierTables]

private theorem advances_readPseudo : r.Advances statement r.readPseudo := by
  unfold readPseudo
  split
  · exact advances_fault (List.suffix_refl _)
  next span next htake =>
  have hnext : r.Passes next := passes_takeRun htake
  split
  · split
    · exact advances_fault hnext.suffix
    · exact hnext.advances (bump_suffix (next.note _))
  · exact hnext.advances (List.suffix_refl _)

private theorem advances_readStyleClass : r.Advances statement r.readStyleClass := by
  unfold readStyleClass
  split
  · exact advances_fault (List.suffix_refl _)
  · next htake => exact (passes_takeRun htake).advances (List.suffix_refl _)

private theorem advances_readElementName : r.Advances statement r.readElementName := by
  unfold readElementName
  split
  · exact advances_fault (List.suffix_refl _)
  · next htake => exact (passes_takeIdentifier htake).advances (List.suffix_refl _)

private theorem advances_readTypeName : r.Advances statement r.readTypeName := by
  have hsame : r.startSegment.rest <:+ r.rest := List.suffix_refl _
  unfold readTypeName
  dsimp only
  split
  · exact advances_fault hsame
  next first next hfirst =>
  have hnext : r.Passes next := (passes_takeIdentifier hfirst).of_suffix hsame
  split
  · split
    · exact advances_fault hnext.suffix
    next second last hsecond =>
    exact hnext.advances ((passes_takeIdentifier hsecond).suffix.trans (bump_suffix next))
  · exact hnext.advances (List.suffix_refl _)

private theorem advances_readPredicate : r.Advances statement r.readPredicate := by
  unfold readPredicate
  dsimp only
  generalize hcleared : (r.note _).skipBlanks = cleared
  have hsuffix : cleared.rest <:+ r.rest := hcleared ▸ skipBlanks_suffix (r.note _)
  split
  · next hpeek => exact ((passes_bump hpeek).of_suffix hsuffix).advances (List.suffix_refl _)
  split
  · exact advances_fault hsuffix
  next first next hfirst =>
  have hnext : r.Passes next := (passes_takeIdentifier hfirst).of_suffix hsuffix
  split
  · split
    · exact advances_fault hnext.suffix
    next second last hsecond =>
    have hlast : last.rest <:+ next.rest :=
      (passes_takeIdentifier hsecond).suffix.trans (bump_suffix next)
    split
    · exact hnext.advances ((bump_suffix last).trans hlast)
    · exact hnext.advances hlast
  split
  · exact hnext.advances (bump_suffix next)
  · exact hnext.advances (readEquals_suffix _)

private theorem readAttachedType_suffix : r.readAttachedType.1.rest <:+ r.rest := by
  unfold readAttachedType
  split
  · exact List.suffix_refl _
  next first next hfirst =>
  have hnext : next.rest <:+ r.rest := (passes_takeIdentifier hfirst).suffix
  split
  next typed found htyped =>
  have htype : typed.rest <:+ next.rest := by
    split at htyped
    · dsimp only at htyped
      split at htyped
      · obtain ⟨rfl, -⟩ := Prod.mk.inj htyped
        exact bump_suffix next
      · next hsecond =>
          obtain ⟨rfl, -⟩ := Prod.mk.inj htyped
          exact (passes_takeIdentifier hsecond).suffix.trans (bump_suffix next)
    · obtain ⟨rfl, -⟩ := Prod.mk.inj htyped
      exact List.suffix_refl _
  split
  · exact (bump_suffix typed).trans (htype.trans hnext)
  · exact htype.trans hnext

private theorem advances_readAttachedProperty (inParentheses : Bool) :
    r.Advances statement (r.readAttachedProperty inParentheses) := by
  unfold readAttachedProperty
  generalize htyped : (if inParentheses then r.readAttachedType else (r, true)) = typed
  have hsuffix : typed.1.rest <:+ r.rest := by
    rw [← htyped]
    split
    · exact readAttachedType_suffix r
    · exact List.suffix_refl _
  dsimp only
  split
  · exact advances_fault hsuffix
  split
  · exact advances_fault hsuffix
  next span next htake =>
  have hnext : r.Passes next := (passes_takeIdentifier htake).of_suffix hsuffix
  split
  · exact hnext.advances (readEquals_suffix _)
  split
  · exact hnext.advances ((readEquals_suffix _).trans (bump_suffix (next.note _)))
  · exact hnext.advances (List.suffix_refl _)

theorem advances_step : r.Advances statement (r.step statement) := by
  cases statement with
  | start => exact r.advances_readStart
  | middle => exact r.advances_readMiddle
  | pseudo => exact r.advances_readPseudo _
  | styleClass => exact r.advances_readStyleClass _
  | elementName => exact r.advances_readElementName _
  | afterName => exact r.advances_readAfterName
  | combinator => exact r.advances_readCombinator
  | typeName => exact r.advances_readTypeName _
  | predicate => exact r.advances_readPredicate _
  | attachedProperty inParentheses => exact r.advances_readAttachedProperty _ inParentheses
  | template => exact r.advances_readTemplate _
  | value => exact r.advances_readValue _
  | function f => exact r.advances_readFunction f
  | arguments => exact r.advances_readArguments _
  | done => exact advances_fault (List.suffix_refl _)

end Components

variable [IdentifierTables]

/-- Reads from a statement to the end of the selector or to the first fault. -/
def run (r : Reading) (statement : Statement) : Reading :=
  if statement = .done then r
  else
    match _h : r.step statement with
    | (next, none) => { next with failed := true }
    | (next, some following) => run { next with parsedTo := next.pos } following
termination_by (if statement = .done then 0 else 1, r.rest.length, statement.rank r.rest)
decreasing_by
  have hadvances := r.advances_step statement
  rw [_h] at hadvances
  have hle : next.rest.length ≤ r.rest.length := hadvances.suffix.length_le
  have hlt := fun h : r.Passes next => h.length_lt
  grind [hadvances.descends following rfl]

theorem run_of_fault {r next : Reading} {statement : Statement} (hne : statement ≠ .done)
    (h : r.step statement = (next, none)) : r.run statement = { next with failed := true } := by
  rw [run, if_neg hne]
  split
  · next heq =>
      obtain ⟨rfl, -⟩ := Prod.mk.inj (h.symm.trans heq)
      rfl
  · next heq => exact absurd (h.symm.trans heq) (by simp)

theorem run_of_goes {r next : Reading} {statement following : Statement} (hne : statement ≠ .done)
    (h : r.step statement = (next, some following)) :
    r.run statement = run { next with parsedTo := next.pos } following := by
  rw [run, if_neg hne]
  split
  · next heq => exact absurd (h.symm.trans heq) (by simp)
  · next heq =>
      obtain ⟨rfl, rfl⟩ := by simpa using h.symm.trans heq
      rfl

/-- Reads a whole selector. -/
def ofText (text : List Char) : Reading := run { rest := text } .start

/-- Reads the part of a selector up to `offset`. -/
def upTo (text : List Char) (offset : Nat) : Reading := ofText (takeBytes text offset)

end Reading

end XamlAssist.Selector
