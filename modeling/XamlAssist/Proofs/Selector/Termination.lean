import XamlAssist.Proofs.Selector.Spans

/-!
# Reading a selector ends

A statement that takes no character gives way to one that is lower in a fixed order. For a
combinator this holds only because it is entered before a blank or a `>` alone, so this invariant is
carried along the rounds. Main statement: `ofText_rounds_descend`.
-/

namespace XamlAssist.Selector

open Text

/-- The order of the statements. -/
def Statement.order : Statement → Nat
  | .function _ => 5
  | .start | .afterName => 4
  | .middle => 3
  | .combinator | .template | .typeName => 2
  | .done => 0
  | _ => 1

namespace Reading

variable {r next : Reading} {statement following : Statement}

/-! ### The order of the statements -/

/-- The bytes that are left, and the place of the statement in the order. -/
def weight (s : Reading × Statement) : Nat × Nat := (byteLength s.1.rest, s.2.order)

private theorem order_pos (h : statement ≠ .done) : 0 < statement.order := by
  cases statement with
  | done => exact absurd rfl h
  | _ => simp [Statement.order]

private theorem order_le_five (statement : Statement) : statement.order ≤ 5 := by
  cases statement <;> simp [Statement.order]

private theorem weight_done_lt (hne : statement ≠ .done) (hsuffix : next.rest <:+ r.rest) :
    Prod.Lex (· < ·) (· < ·) (weight (next, .done)) (weight (r, statement)) := by
  obtain ⟨taken, htaken⟩ := hsuffix
  have hle : byteLength next.rest ≤ byteLength r.rest := by
    rw [← htaken, byteLength_append]
    exact Nat.le_add_left _ _
  have hpos : 0 < statement.order := order_pos hne
  exact Prod.lex_def.mpr ((Nat.lt_or_eq_of_le hle).imp_right (⟨·, hpos⟩))

/-- A combinator is entered before a blank or a `>`. -/
def Entered (s : Reading × Statement) : Prop :=
  s.2 = .combinator → s.1.peek.any (fun c => c = '>' || isBlank c) = true

private theorem readEquals_ne_combinator (r : Reading) : r.readEquals.2 ≠ some .combinator := by
  grind [readEquals, goOn, fault]

private theorem order_le_rank (statement : Statement) (rest : List Char) :
    statement.order ≤ statement.rank rest + 1 := by
  cases statement with
  | combinator =>
      rw [Statement.rank]
      split <;> simp [Statement.order]
  | _ => simp [Statement.order, Statement.rank]

/-- Where a combinator is entered as it should be, the rank is that of the fixed order. -/
theorem rank_lt_order (hne : statement ≠ .done) (h : Entered (r, statement)) :
    statement.rank r.rest < statement.order := by
  cases statement with
  | combinator =>
      have hpeek : r.rest.head?.any (fun c => c = '>' || isBlank c) = true := h rfl
      simp [Statement.order, Statement.rank, hpeek]
  | done => exact absurd rfl hne
  | _ => simp [Statement.order, Statement.rank]

variable [IdentifierTables]

/-! ### How a statement is entered -/

private theorem entered_of_step (h : r.step statement = (next, some following)) :
    Entered (next, following) := by
  rintro rfl
  cases statement with
  | middle =>
      cases hpeek : r.peek with
      | none => grind [step, readMiddle, goOn, fault]
      | some c => grind [step, readMiddle, goOn, fault]
  | start => grind [step, readStart, goOn, fault]
  | afterName => grind [step, readAfterName, goOn]
  | combinator => grind [step, readCombinator, goOn]
  | pseudo => grind [step, readPseudo, goOn, fault]
  | styleClass => grind [step, readStyleClass, goOn, fault]
  | elementName => grind [step, readElementName, goOn, fault]
  | typeName => grind [step, readTypeName, goOn, fault]
  | predicate => grind [step, readPredicate, goOn, fault, readEquals_ne_combinator]
  | attachedProperty _ => grind [step, readAttachedProperty, fault, readEquals_ne_combinator]
  | template => grind [step, readTemplate, goOn, fault]
  | value => grind [step, readValue, goOn, fault]
  | arguments => grind [step, readArguments, goOn, fault]
  | function f => cases f <;> simp [step, readFunction, goOn] at h
  | done => simp [step, fault] at h

/-! ### One round -/

/-- What a round does before the end: the statement fails, ends the selector, takes at least one
character, or gives way to a statement that is lower. -/
inductive Descends : Reading × Statement → Reading × Statement → Prop
  | fails {r next : Reading} {statement : Statement} :
      r.step statement = (next, none) →
      Descends (r, statement) ({ next with failed := true }, .done)
  | ends {r next : Reading} {statement : Statement} :
      r.step statement = (next, some .done) →
      Descends (r, statement) ({ next with parsedTo := next.pos }, .done)
  | takes {r next : Reading} {statement following : Statement} {taken : List Char} :
      r.step statement = (next, some following) → r.rest = taken ++ next.rest → taken ≠ [] →
      Descends (r, statement) ({ next with parsedTo := next.pos }, following)
  | givesWay {r next : Reading} {statement following : Statement} :
      r.step statement = (next, some following) → r.rest = next.rest →
      following.order < statement.order →
      Descends (r, statement) ({ next with parsedTo := next.pos }, following)

variable {s : Reading × Statement}

theorem Entered.round (h : Entered s) : Entered (round s) := by
  unfold Reading.round
  split
  · exact h
  split
  · rintro ⟨⟩
  · next next following hstep =>
      have hnext : Entered (next, following) := entered_of_step hstep
      exact hnext

private theorem Entered.iterate_round (h : Entered s) (n : Nat) :
    Entered (Reading.round^[n] s) := by
  induction n with
  | zero => exact h
  | succ n ih =>
      rw [Function.iterate_succ_apply']
      exact ih.round

private theorem descends_round (hne : s.2 ≠ .done) (h : Entered s) : Descends s (round s) := by
  obtain ⟨r, statement⟩ := s
  have hadvances := r.advances_step statement
  rw [Reading.round, if_neg hne]
  dsimp only
  split
  · next next hstep => exact .fails hstep
  next next following hstep =>
  rw [hstep] at hadvances
  obtain ⟨taken, htaken⟩ : next.rest <:+ r.rest := hadvances.suffix
  by_cases hnil : taken = []
  · subst hnil
    rcases hadvances.descends following rfl with rfl | hpasses | hrank
    · exact .ends hstep
    · exact absurd (congrArg List.length htaken) (Nat.ne_of_lt hpasses.length_lt)
    · have horder : following.order < statement.order :=
        calc
          following.order ≤ following.rank next.rest + 1 := order_le_rank _ _
          _ ≤ statement.rank r.rest := hrank
          _ < statement.order := rank_lt_order hne h
      exact .givesWay hstep htaken.symm horder
  · exact .takes hstep htaken.symm hnil

private theorem weight_round_lt (hne : s.2 ≠ .done) (h : Entered s) :
    Prod.Lex (· < ·) (· < ·) (weight (round s)) (weight s) := by
  have hsuffix := (s.1.advances_step s.2).suffix
  have hdescends := descends_round hne h
  generalize round s = next at hdescends
  cases hdescends with
  | fails hstep =>
      rw [hstep] at hsuffix
      exact weight_done_lt hne hsuffix
  | ends hstep =>
      rw [hstep] at hsuffix
      exact weight_done_lt hne hsuffix
  | takes _ hrest htaken =>
      refine .left _ _ ?_
      have hbytes := byteLength_pos htaken
      simp only [hrest, byteLength_append]
      omega
  | givesWay _ hrest horder =>
      exact Prod.lex_def.mpr (.inr ⟨congrArg byteLength hrest.symm, horder⟩)

/-! ### The number of rounds -/

/-- After `n` rounds the end is reached, or the weight has come down `n` times. -/
theorem iterate_round_done_or (h : Entered s) (n : Nat) :
    (round^[n] s).2 = .done ∨
      n + (6 * (weight (round^[n] s)).1 + (weight (round^[n] s)).2) ≤
        6 * (weight s).1 + (weight s).2 := by
  induction n with
  | zero => exact .inr (by simp)
  | succ n ih =>
      rw [Function.iterate_succ_apply']
      by_cases hne : (round^[n] s).2 = .done
      · exact .inl (by rw [round, if_pos hne, hne])
      have hle := ih.resolve_left hne
      have hfive : (weight (round (round^[n] s))).2 ≤ 5 := order_le_five _
      rcases Prod.lex_def.mp (weight_round_lt hne (h.iterate_round n)) with hlt | ⟨heq, hlt⟩
      · exact .inr (by omega)
      · exact .inr (by omega)

private theorem iterate_round_done (h : Entered s) :
    (round^[6 * byteLength s.1.rest + s.2.order] s).2 = .done := by
  rcases iterate_round_done_or h (6 * byteLength s.1.rest + s.2.order) with hdone | hle
  · exact hdone
  by_contra hne
  have hpos : 0 < (weight (round^[6 * byteLength s.1.rest + s.2.order] s)).2 := order_pos hne
  have hstart : weight s = (byteLength s.1.rest, s.2.order) := rfl
  simp only [hstart] at hle
  omega

private theorem run_round (s : Reading × Statement) :
    (round s).1.run (round s).2 = s.1.run s.2 := by
  obtain ⟨r, statement⟩ := s
  by_cases hne : statement = .done
  · rw [round, if_pos hne]
  rw [round, if_neg hne]
  split
  · next hstep => rw [run_of_fault hne hstep, run, if_pos rfl]
  · next hstep => rw [run_of_goes hne hstep]

private theorem run_iterate_round (s : Reading × Statement) (n : Nat) :
    (round^[n] s).1.run (round^[n] s).2 = s.1.run s.2 := by
  induction n with
  | zero => rfl
  | succ n ih => rw [Function.iterate_succ_apply', run_round, ih]

/-- Every round before the end descends: the statement fails, ends the selector, takes a character,
or gives way to one that is lower in the order, and the bytes that are left together with the place
in the order come down. A combinator is entered before a blank or a `>` alone. So the end is
reached, after at most six rounds for every byte and four more. -/
theorem ofText_rounds_descend (text : List Char) :
    (∀ n,
      let s := round^[n] ({ rest := text }, .start)
      (s.2 ≠ .done →
        Descends s (round s) ∧ Prod.Lex (· < ·) (· < ·) (weight (round s)) (weight s)) ∧
      (s.2 = .combinator → s.1.peek.any (fun c => c = '>' || isBlank c) = true)) ∧
    round^[6 * byteLength text + 4] ({ rest := text }, .start) = (ofText text, .done) := by
  have hstart : Entered ({ rest := text }, .start) := by simp [Entered]
  refine ⟨fun n => ?_, ?_⟩
  · have hentered := hstart.iterate_round n
    exact ⟨fun hne => ⟨descends_round hne hentered, weight_round_lt hne hentered⟩, hentered⟩
  · have hdone : (round^[6 * byteLength text + 4] ({ rest := text }, .start)).2 = .done :=
      iterate_round_done hstart
    have hrun := run_iterate_round ({ rest := text }, .start) (6 * byteLength text + 4)
    rw [hdone, run, if_pos rfl] at hrun
    exact Prod.ext hrun hdone

end Reading

end XamlAssist.Selector
