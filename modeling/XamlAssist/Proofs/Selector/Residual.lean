import XamlAssist.Proofs.Selector.Sequence

/-!
# What may still follow

For each statement of the reader, the texts that complete a selector when the reader stands at that
statement. Main statement: `tail_iff`, which tells by the first character behind the blanks what
follows a component.
-/

namespace XamlAssist.Selector

open Text

variable [IdentifierTables]

/-- What may follow a component while the parentheses of the functions in `stack` are open. -/
def Tail : List Function → List Char → Prop
  | [], text => Then (IsLinks IsClassName) IsBlankRun text
  | _ :: stack, text => Then (IsLinks IsClassName) (Then IsBlankRun (Starts ')' (Tail stack))) text

/-- A head with what follows it. -/
def HeadTail (stack : List Function) : List Char → Prop := Then (IsHead IsClassName) (Tail stack)

/-- A head behind blanks, with what follows it. -/
def Segment (stack : List Function) : List Char → Prop := Then IsBlankRun (HeadTail stack)

/-- The value of a condition, from behind the `=`. -/
def ValueTail (stack : List Function) : List Char → Prop :=
  Then (fun s => ']' ∉ s ∧ True) (Starts ']' (Tail stack))

/-- The rest of a condition behind its property. -/
def EqualsTail (stack : List Function) : List Char → Prop :=
  Then IsBlankRun (Starts '=' (ValueTail stack))

/-- A condition right behind a component. -/
inductive Attached (stack : List Function) : List Char → Prop
  | pseudo {t : List Char} : Then (IsPseudo IsClassName) (Tail stack) t → Attached stack (':' :: t)
  | styleClass {t : List Char} : Then IsClassName (Tail stack) t → Attached stack ('.' :: t)
  | elementName {t : List Char} : Then IsIdentifier (Tail stack) t → Attached stack ('#' :: t)
  | predicate {t : List Char} :
      Then IsPredicate (Starts ']' (Tail stack)) t → Attached stack ('[' :: t)

/-- What may follow a component behind blanks that mean nothing. -/
inductive Joined (stack : List Function) : List Char → Prop
  | finish : stack = [] → Joined stack []
  | close {f : Function} {outer : List Function} {t : List Char} :
      stack = f :: outer → Tail outer t → Joined stack (')' :: t)
  | child {t : List Char} : Segment stack t → Joined stack ('>' :: t)
  | template {t : List Char} : Segment stack t → Joined stack (templateText ++ t)
  | alternative {t : List Char} : Segment stack t → Joined stack (',' :: t)

variable {stack : List Function}

/-! ### Whole selectors -/

private theorem segment_nil_iff (text : List Char) :
    Segment [] text ↔ Then (IsChain IsClassName) IsBlankRun text := by
  constructor
  · intro h
    obtain ⟨before, -, hbefore, ⟨head, -, hhead, ⟨links, after, hlinks, hafter, rfl⟩, rfl⟩, rfl⟩ :=
      h
    exact ⟨_, after, .mk hbefore hhead hlinks, hafter, by simp⟩
  · intro h
    obtain ⟨-, after, ⟨hbefore, hhead, hlinks⟩, hafter, rfl⟩ := h
    exact ⟨_, _, hbefore, ⟨_, _, hhead, ⟨_, _, hlinks, hafter, rfl⟩, rfl⟩, by simp⟩

theorem isSelector_iff (text : List Char) :
    IsSelector IsClassName text ↔ IsBlankRun text ∨ Segment [] text := by
  rw [segment_nil_iff]
  constructor
  · intro h
    cases h with
    | blank h => exact .inl h
    | chain hchain hblanks => exact .inr ⟨_, _, hchain, hblanks, rfl⟩
  · rintro (h | ⟨chain, blanks, hchain, hblanks, rfl⟩)
    · exact .blank h
    · exact .chain hchain hblanks

/-! ### Links in front of a tail -/

private theorem tail_link {s t : List Char} (hs : IsLink IsClassName s) (ht : Tail stack t) :
    Tail stack (s ++ t) := by
  cases stack with
  | nil =>
      obtain ⟨links, blanks, hlinks, hblanks, rfl⟩ := ht
      exact ⟨s ++ links, blanks, .cons hs hlinks, hblanks, (List.append_assoc s links blanks).symm⟩
  | cons f outer =>
      obtain ⟨links, rest, hlinks, hrest, rfl⟩ := ht
      exact ⟨s ++ links, rest, .cons hs hlinks, hrest, (List.append_assoc s links rest).symm⟩

private theorem tail_cases {text : List Char} (h : Tail stack text) :
    (∃ blanks rest, IsBlankRun blanks ∧ Joined stack rest ∧ text = blanks ++ rest) ∨
      Then (IsLink IsClassName) (Tail stack) text := by
  cases stack with
  | nil =>
      obtain ⟨links, blanks, hlinks, hblanks, rfl⟩ := h
      cases hlinks with
      | nil => exact .inl ⟨blanks, [], hblanks, .finish rfl, by simp⟩
      | @cons s t hs ht =>
          exact .inr ⟨s, t ++ blanks, hs, ⟨t, blanks, ht, hblanks, rfl⟩, by simp⟩
  | cons f outer =>
      obtain ⟨links, -, hlinks, ⟨blanks, -, hblanks, ⟨rest, hrest, rfl⟩, rfl⟩, rfl⟩ := h
      cases hlinks with
      | nil => exact .inl ⟨blanks, ')' :: rest, hblanks, .close rfl hrest, rfl⟩
      | @cons s t hs ht =>
          refine .inr ⟨s, t ++ (blanks ++ ')' :: rest), hs, ?_, by simp⟩
          exact ⟨t, _, ht, ⟨blanks, _, hblanks, ⟨rest, hrest, rfl⟩, rfl⟩, rfl⟩

private theorem tail_of_joined {blanks rest : List Char} (hblanks : IsBlankRun blanks)
    (h : Joined stack rest) : Tail stack (blanks ++ rest) := by
  cases h with
  | finish hstack =>
      subst hstack
      exact ⟨[], blanks, .nil, hblanks, by simp⟩
  | @close f outer t hstack ht =>
      subst hstack
      exact ⟨[], _, .nil, ⟨blanks, _, hblanks, ⟨t, ht, rfl⟩, rfl⟩, rfl⟩
  | child ht =>
      obtain ⟨after, -, hafter, ⟨head, u, hhead, hu, rfl⟩, rfl⟩ := ht
      have hlink := tail_link (.child hblanks hafter hhead) hu
      simpa using hlink
  | template ht =>
      obtain ⟨after, -, hafter, ⟨head, u, hhead, hu, rfl⟩, rfl⟩ := ht
      have hlink := tail_link (.template hblanks hafter hhead) hu
      simpa using hlink
  | alternative ht =>
      obtain ⟨after, -, hafter, ⟨head, u, hhead, hu, rfl⟩, rfl⟩ := ht
      have hlink := tail_link (.alternative hblanks hafter hhead) hu
      simpa using hlink

private theorem tail_of_attached {text : List Char} (h : Attached stack text) :
    Tail stack text := by
  cases h with
  | pseudo ht =>
      obtain ⟨s, u, hs, hu, rfl⟩ := ht
      exact tail_link (.pseudo hs) hu
  | styleClass ht =>
      obtain ⟨s, u, hs, hu, rfl⟩ := ht
      exact tail_link (.styleClass hs) hu
  | elementName ht =>
      obtain ⟨s, u, hs, hu, rfl⟩ := ht
      exact tail_link (.elementName hs) hu
  | predicate ht =>
      obtain ⟨s, -, hs, ⟨u, hu, rfl⟩, rfl⟩ := ht
      have hlink := tail_link (.predicate hs) hu
      simpa using hlink

/-- What follows a component: a condition right behind it, or behind blanks an end, a combinator
or, if there are blanks, another head. -/
theorem tail_iff (text : List Char) :
    Tail stack text ↔
      Attached stack text ∨ Then IsBlankRun (Joined stack) text ∨
        Then (fun s => s ≠ [] ∧ IsBlankRun s) (HeadTail stack) text := by
  constructor
  · intro h
    rcases tail_cases h with hjoined | ⟨s, t, hs, ht, rfl⟩
    · exact .inr (.inl hjoined)
    · cases hs with
      | pseudo hs => exact .inl (.pseudo ⟨_, t, hs, ht, rfl⟩)
      | styleClass hs => exact .inl (.styleClass ⟨_, t, hs, ht, rfl⟩)
      | elementName hs => exact .inl (.elementName ⟨_, t, hs, ht, rfl⟩)
      | predicate hs => exact .inl (.predicate ⟨_, _, hs, ⟨t, ht, rfl⟩, by simp⟩)
      | @child before after head hbefore hafter hhead =>
          have hsegment : Segment stack (after ++ (head ++ t)) :=
            ⟨after, _, hafter, ⟨head, t, hhead, ht, rfl⟩, rfl⟩
          exact .inr (.inl ⟨before, _, hbefore, .child hsegment, by simp⟩)
      | @template before after head hbefore hafter hhead =>
          have hsegment : Segment stack (after ++ (head ++ t)) :=
            ⟨after, _, hafter, ⟨head, t, hhead, ht, rfl⟩, rfl⟩
          exact .inr (.inl ⟨before, _, hbefore, .template hsegment, by simp⟩)
      | @descendant blanks head hblanks hne hhead =>
          exact .inr (.inr ⟨blanks, _, ⟨hne, hblanks⟩, ⟨head, t, hhead, ht, rfl⟩, by simp⟩)
      | @alternative before after head hbefore hafter hhead =>
          have hsegment : Segment stack (after ++ (head ++ t)) :=
            ⟨after, _, hafter, ⟨head, t, hhead, ht, rfl⟩, rfl⟩
          exact .inr (.inl ⟨before, _, hbefore, .alternative hsegment, by simp⟩)
  · intro h
    rcases h with h | ⟨blanks, rest, hblanks, h, rfl⟩ | ⟨blanks, rest, hblanks, h, rfl⟩
    · exact tail_of_attached h
    · exact tail_of_joined hblanks h
    · obtain ⟨head, t, hhead, ht, rfl⟩ := h
      have hlink := tail_link (.descendant hblanks.2 hblanks.1 hhead) ht
      rwa [List.append_assoc] at hlink

/-! ### First characters -/

private theorem typeName_head {s : List Char} (h : IsTypeName s) :
    ∃ c t, s = c :: t ∧ isIdentifierStart c = true := by
  cases h with
  | plain hs =>
      cases s with
      | nil => exact absurd hs id
      | cons c t => exact ⟨c, t, rfl, hs.1⟩
  | @qualified s t hs ht =>
      cases s with
      | nil => exact absurd hs id
      | cons c s => exact ⟨c, s ++ '|' :: t, rfl, hs.1⟩

theorem headTail_cons_iff (c : Char) (t : List Char) :
    HeadTail stack (c :: t) ↔
      (c = ':' ∧ Then (IsPseudo IsClassName) (Tail stack) t) ∨
        (c = '.' ∧ Then IsClassName (Tail stack) t) ∨
        (c = '#' ∧ Then IsIdentifier (Tail stack) t) ∨ (c = '^' ∧ Tail stack t) ∨
        (isIdentifierStart c = true ∧ Then IsTypeName (Tail stack) (c :: t)) := by
  constructor
  · intro h
    obtain ⟨head, u, hhead, hu, heq⟩ := h
    cases hhead with
    | typeName hs =>
        obtain ⟨d, s, rfl, hd⟩ := typeName_head hs
        obtain ⟨rfl, rfl⟩ := List.cons.inj heq
        exact .inr (.inr (.inr (.inr ⟨hd, _, u, hs, hu, rfl⟩)))
    | nesting =>
        obtain ⟨rfl, rfl⟩ := List.cons.inj heq
        exact .inr (.inr (.inr (.inl ⟨rfl, hu⟩)))
    | @pseudo s hs =>
        obtain ⟨rfl, rfl⟩ := List.cons.inj heq
        exact .inl ⟨rfl, s, u, hs, hu, rfl⟩
    | @styleClass s hs =>
        obtain ⟨rfl, rfl⟩ := List.cons.inj heq
        exact .inr (.inl ⟨rfl, s, u, hs, hu, rfl⟩)
    | @elementName s hs =>
        obtain ⟨rfl, rfl⟩ := List.cons.inj heq
        exact .inr (.inr (.inl ⟨rfl, s, u, hs, hu, rfl⟩))
  · intro h
    rcases h with ⟨rfl, s, u, hs, hu, rfl⟩ | ⟨rfl, s, u, hs, hu, rfl⟩ | ⟨rfl, s, u, hs, hu, rfl⟩ |
      ⟨rfl, ht⟩ | ⟨-, s, u, hs, hu, heq⟩
    · exact ⟨_, u, .pseudo hs, hu, rfl⟩
    · exact ⟨_, u, .styleClass hs, hu, rfl⟩
    · exact ⟨_, u, .elementName hs, hu, rfl⟩
    · exact ⟨_, t, .nesting, ht, rfl⟩
    · exact ⟨s, u, .typeName hs, hu, heq⟩

theorem not_headTail_nil : ¬ HeadTail stack [] := by
  intro h
  obtain ⟨head, u, hhead, hu, heq⟩ := h
  obtain ⟨rfl, -⟩ := List.append_eq_nil_iff.mp heq.symm
  cases hhead with
  | typeName hs =>
      obtain ⟨c, t, h, -⟩ := typeName_head hs
      exact List.cons_ne_nil c t h.symm

theorem attached_cons_iff (c : Char) (t : List Char) :
    Attached stack (c :: t) ↔
      (c = ':' ∧ Then (IsPseudo IsClassName) (Tail stack) t) ∨
        (c = '.' ∧ Then IsClassName (Tail stack) t) ∨
        (c = '#' ∧ Then IsIdentifier (Tail stack) t) ∨
        (c = '[' ∧ Then IsPredicate (Starts ']' (Tail stack)) t) := by
  constructor
  · intro h
    cases h with
    | pseudo h => exact .inl ⟨rfl, h⟩
    | styleClass h => exact .inr (.inl ⟨rfl, h⟩)
    | elementName h => exact .inr (.inr (.inl ⟨rfl, h⟩))
    | predicate h => exact .inr (.inr (.inr ⟨rfl, h⟩))
  · intro h
    rcases h with ⟨rfl, h⟩ | ⟨rfl, h⟩ | ⟨rfl, h⟩ | ⟨rfl, h⟩
    · exact .pseudo h
    · exact .styleClass h
    · exact .elementName h
    · exact .predicate h

/-- The combinator that leads into a template, with what follows it. -/
def TemplateTail (stack : List Function) (text : List Char) : Prop :=
  ∃ t, Segment stack t ∧ text = templateText ++ t

theorem joined_cons_iff (c : Char) (t : List Char) :
    Joined stack (c :: t) ↔
      (c = ')' ∧ ∃ f outer, stack = f :: outer ∧ Tail outer t) ∨ (c = '>' ∧ Segment stack t) ∨
        (c = ',' ∧ Segment stack t) ∨ (c = '/' ∧ TemplateTail stack (c :: t)) := by
  constructor
  · intro h
    generalize heq : c :: t = text at h
    cases h with
    | finish _ => exact absurd heq (List.cons_ne_nil c t)
    | @close f outer u hstack hu =>
        obtain ⟨rfl, rfl⟩ := List.cons.inj heq
        exact .inl ⟨rfl, f, outer, hstack, hu⟩
    | child hu =>
        obtain ⟨rfl, rfl⟩ := List.cons.inj heq
        exact .inr (.inl ⟨rfl, hu⟩)
    | @template u hu =>
        have hc : c = '/' := (List.cons.inj heq).1
        exact .inr (.inr (.inr ⟨hc, u, hu, rfl⟩))
    | alternative hu =>
        obtain ⟨rfl, rfl⟩ := List.cons.inj heq
        exact .inr (.inr (.inl ⟨rfl, hu⟩))
  · intro h
    rcases h with ⟨rfl, f, outer, hstack, ht⟩ | ⟨rfl, ht⟩ | ⟨rfl, ht⟩ | ⟨-, u, hu, heq⟩
    · exact .close hstack ht
    · exact .child ht
    · exact .alternative ht
    · rw [heq]
      exact .template hu

theorem joined_nil_iff : Joined stack [] ↔ stack = [] := by
  constructor
  · intro h
    generalize heq : ([] : List Char) = text at h
    cases h with
    | finish hstack => exact hstack
    | close _ _ => exact absurd heq.symm (List.cons_ne_nil _ _)
    | child _ => exact absurd heq.symm (List.cons_ne_nil _ _)
    | template _ => exact absurd heq (by simp [templateText])
    | alternative _ => exact absurd heq.symm (List.cons_ne_nil _ _)
  · exact .finish

private theorem avoids_joined : Avoids isBlank (Joined stack) := by
  intro c t h
  rcases (joined_cons_iff c t).mp h with ⟨rfl, -⟩ | ⟨rfl, -⟩ | ⟨rfl, -⟩ | ⟨rfl, -⟩ <;> decide

/-! ### Scanning over blanks -/

section Lawful

variable [LawfulIdentifierTables]

private theorem avoids_headTail : Avoids isBlank (HeadTail stack) := by
  intro c t h
  rcases (headTail_cons_iff c t).mp h with ⟨rfl, -⟩ | ⟨rfl, -⟩ | ⟨rfl, -⟩ | ⟨rfl, -⟩ | ⟨hc, -⟩
  · decide
  · decide
  · decide
  · decide
  · exact isBlank_of_identifierStart hc

theorem segment_iff (text : List Char) :
    Segment stack text ↔ HeadTail stack (text.dropWhile isBlank) :=
  then_blanks_iff avoids_headTail text

private theorem tail_scan_iff (text : List Char) :
    Tail stack text ↔
      Attached stack text ∨ Joined stack (text.dropWhile isBlank) ∨
        (text.head?.any isBlank = true ∧ HeadTail stack (text.dropWhile isBlank)) := by
  rw [tail_iff, then_blanks_iff avoids_joined]
  exact or_congr_right (or_congr_right (then_nonempty_run_iff avoids_headTail text))

theorem tail_nil_iff : Tail stack [] ↔ stack = [] := by
  rw [tail_scan_iff, List.dropWhile_nil, joined_nil_iff]
  constructor
  · intro h
    rcases h with h | h | ⟨h, -⟩
    · nomatch h
    · exact h
    · simp at h
  · exact fun h => .inr (.inl h)

theorem tail_cons_iff {c : Char} (hc : isBlank c = false) (t : List Char) :
    Tail stack (c :: t) ↔ Attached stack (c :: t) ∨ Joined stack (c :: t) := by
  rw [tail_scan_iff, List.dropWhile_cons, if_neg (by simp [hc])]
  simp [hc]

theorem tail_blank_iff {c : Char} (hc : isBlank c = true) (t : List Char) :
    Tail stack (c :: t) ↔
      Joined stack (t.dropWhile isBlank) ∨ HeadTail stack (t.dropWhile isBlank) := by
  have hattached : ¬ Attached stack (c :: t) := by
    intro h
    rcases (attached_cons_iff c t).mp h with ⟨rfl, -⟩ | ⟨rfl, -⟩ | ⟨rfl, -⟩ | ⟨rfl, -⟩ <;>
      exact absurd hc (by decide)
  rw [tail_scan_iff, List.dropWhile_cons, if_pos hc]
  simp [hattached, hc]

theorem tail_head {c : Char} {t : List Char} (h : Tail stack (c :: t)) :
    isBlank c = true ∨ c ∈ [':', '.', '#', '[', ')', '>', ',', '/'] := by
  by_cases hc : isBlank c = true
  · exact .inl hc
  · rw [Bool.not_eq_true] at hc
    right
    rcases (tail_cons_iff hc t).mp h with h | h
    · rcases (attached_cons_iff c t).mp h with ⟨rfl, -⟩ | ⟨rfl, -⟩ | ⟨rfl, -⟩ | ⟨rfl, -⟩ <;> simp
    · rcases (joined_cons_iff c t).mp h with ⟨rfl, -⟩ | ⟨rfl, -⟩ | ⟨rfl, -⟩ | ⟨rfl, -⟩ <;> simp

theorem not_tail_bar {t : List Char} : ¬ Tail stack ('|' :: t) := by
  intro h
  rcases tail_head h with hblank | hmem
  · exact absurd hblank (by decide)
  · exact absurd hmem (by decide)

theorem tail_head_delimiter {c : Char} {t : List Char} (h : Tail stack (c :: t)) :
    isBlank c = true ∨ c ∈ selectorDelimiters := by
  refine (tail_head h).imp_right fun hmem => ?_
  simp only [List.mem_cons, List.not_mem_nil, or_false] at hmem
  rcases hmem with rfl | rfl | rfl | rfl | rfl | rfl | rfl | rfl <;> decide

theorem avoids_tail : Avoids isStyleClassChar (Tail stack) := by
  intro c t h
  rcases tail_head_delimiter h with hblank | hmem
  · exact isStyleClassChar_of_isBlank hblank
  · exact isStyleClassChar_of_delimiter hmem

theorem avoids_tail_continue : Avoids isIdentifierContinue (Tail stack) :=
  fun c t h => isIdentifierContinue_of_styleClass (avoids_tail c t h)

end Lawful

/-! ### Conditions on properties -/

/-- A property with the rest of its condition. -/
def PathTail (stack : List Function) : List Char → Prop := Then IsPropertyPath (EqualsTail stack)

theorem equalsTail_iff (text : List Char) :
    EqualsTail stack text ↔ Starts '=' (ValueTail stack) (text.dropWhile isBlank) :=
  then_blanks_iff (avoids_starts (by decide) _) text

private theorem equalsTail_head {c : Char} {t : List Char} (h : EqualsTail stack (c :: t)) :
    isBlank c = true ∨ c = '=' := by
  by_cases hc : isBlank c = true
  · exact .inl hc
  · rw [equalsTail_iff, List.dropWhile_cons, if_neg hc, starts_cons] at h
    exact .inr h.1

theorem not_equalsTail {c : Char} {t : List Char} (hblank : isBlank c = false) (hc : c ≠ '=') :
    ¬ EqualsTail stack (c :: t) := by
  intro h
  rcases equalsTail_head h with h | h
  · exact Bool.noConfusion (hblank.symm.trans h)
  · exact hc h

theorem avoids_equalsTail [LawfulIdentifierTables] :
    Avoids isIdentifierContinue (EqualsTail stack) := by
  intro c t h
  rcases equalsTail_head h with hblank | rfl
  · exact isIdentifierContinue_of_isBlank hblank
  · exact isIdentifierContinue_of_delimiter (by decide)

theorem pathTail_iff (text : List Char) :
    PathTail stack text ↔
      Starts '('
          (Then IsTypeName (Starts '.' (Then IsIdentifier (Starts ')' (EqualsTail stack))))) text ∨
        Then IsIdentifier (EqualsTail stack) text ∨
        Then IsTypeName (Starts '.' (Then IsIdentifier (EqualsTail stack))) text := by
  constructor
  · intro h
    obtain ⟨path, u, hpath, hu, rfl⟩ := h
    cases hpath with
    | own hp => exact .inr (.inl ⟨path, u, hp, hu, rfl⟩)
    | @attached t p ht hp =>
        exact .inr (.inr ⟨t, _, ht, ⟨_, ⟨p, u, hp, hu, rfl⟩, rfl⟩, by simp⟩)
    | @enclosed t p ht hp =>
        exact .inl ⟨_, ⟨t, _, ht, ⟨_, ⟨p, _, hp, ⟨u, hu, rfl⟩, rfl⟩, rfl⟩, rfl⟩, by simp⟩
  · intro h
    rcases h with ⟨-, ⟨t, -, ht, ⟨-, ⟨p, -, hp, ⟨u, hu, rfl⟩, rfl⟩, rfl⟩, rfl⟩, rfl⟩ |
      ⟨p, u, hp, hu, rfl⟩ | ⟨t, -, ht, ⟨-, ⟨p, u, hp, hu, rfl⟩, rfl⟩, rfl⟩
    · exact ⟨_, u, .enclosed ht hp, hu, by simp⟩
    · exact ⟨p, u, .own hp, hu, rfl⟩
    · exact ⟨_, u, .attached ht hp, hu, by simp⟩

private theorem avoids_pathTail [LawfulIdentifierTables] : Avoids isBlank (PathTail stack) := by
  intro c t h
  rw [pathTail_iff] at h
  rcases h with h | ⟨s, u, hs, -, heq⟩ | ⟨s, u, hs, -, heq⟩
  · rw [((starts_cons _ _ _ _).mp h).1]
    decide
  · obtain ⟨d, s, rfl, hd⟩ := typeName_head (.plain hs)
    rw [(List.cons.inj heq).1]
    exact isBlank_of_identifierStart hd
  · obtain ⟨d, s, rfl, hd⟩ := typeName_head hs
    rw [(List.cons.inj heq).1]
    exact isBlank_of_identifierStart hd

theorem then_predicate_iff [LawfulIdentifierTables] (text : List Char) :
    Then IsPredicate (Starts ']' (Tail stack)) text ↔ PathTail stack (text.dropWhile isBlank) := by
  rw [← then_blanks_iff avoids_pathTail]
  constructor
  · intro h
    obtain ⟨-, -, ⟨hbefore, hpath, hafter, hvalue⟩, ⟨t, ht, rfl⟩, rfl⟩ := h
    refine ⟨_, _, hbefore, ⟨_, _, hpath, ⟨_, _, hafter, ⟨_, ⟨_, _, ⟨hvalue, trivial⟩,
      ⟨t, ht, rfl⟩, rfl⟩, rfl⟩, rfl⟩, rfl⟩, by simp⟩
  · intro h
    obtain ⟨before, -, hbefore, ⟨path, -, hpath, ⟨after, -, hafter, ⟨-, ⟨value, -, hvalue,
      ⟨t, ht, rfl⟩, rfl⟩, rfl⟩, rfl⟩, rfl⟩, rfl⟩ := h
    exact ⟨_, _, .mk hbefore hpath hafter hvalue.1, ⟨t, ht, rfl⟩, by simp⟩

end XamlAssist.Selector
