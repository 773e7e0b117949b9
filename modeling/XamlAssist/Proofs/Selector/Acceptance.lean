import Mathlib.Data.List.DropRight
import XamlAssist.Proofs.Selector.Residual
import XamlAssist.Proofs.Selector.Taking

/-!
# The reader accepts exactly the selectors

Each statement goes on without fault exactly if the text that is left completes a selector from
there, and the same then holds of the next statement. So a whole run is without fault exactly on the
selectors of the grammar.
-/

namespace XamlAssist.Selector

open Text

private theorem isCount_iff (s : List Char) :
    isCount s = true ↔
      (trim s = ['o', 'd', 'd'] ∨ trim s = ['e', 'v', 'e', 'n'] ∨
        (trim s ≠ [] ∧
          ∀ c ∈ trim s, c.isDigit = true ∨ c = 'n' ∨ c = '+' ∨ c = '-' ∨ isBlank c = true)) := by
  simp [isCount, or_assoc]

private theorem isBlankRun_iff (text : List Char) : IsBlankRun text ↔ text.dropWhile isBlank = [] :=
  List.dropWhile_eq_nil_iff.symm

private theorem ofName?_cases {name : List Char} {f : Function}
    (h : Function.ofName? name = some f) :
    (f = .is ∧ name = ['i', 's']) ∨ (f = .not ∧ name = ['n', 'o', 't']) ∨
      ((f = .nthChild ∨ f = .nthLastChild) ∧ IsCountName name) := by
  unfold Function.ofName? at h
  split at h
  · next hname => exact .inl ⟨(Option.some.inj h).symm, hname⟩
  split at h
  · next hname => exact .inr (.inl ⟨(Option.some.inj h).symm, hname⟩)
  split at h
  · next hname =>
      exact .inr (.inr ⟨.inl (Option.some.inj h).symm, hname ▸ .nthChild⟩)
  split at h
  · next hname =>
      exact .inr (.inr ⟨.inr (Option.some.inj h).symm, hname ▸ .nthLastChild⟩)
  · exact absurd h (by simp)

private theorem plain_of_mem_functionNames {name : List Char} (h : name ∈ functionNames) :
    ∀ c ∈ name, isBlank c = false ∧ c ∉ selectorDelimiters := by
  have hall : functionNames.all (fun name =>
      name.all fun c => !isBlank c && !selectorDelimiters.contains c) = true := by decide +kernel
  intro c hc
  simpa using List.all_eq_true.mp (List.all_eq_true.mp hall name h) c hc

section Tables

variable [IdentifierTables]

/-- The texts that complete a selector from a statement on, while the parentheses of the functions
in `stack` are open. A combinator stands for the blank that may be before it. -/
def Residual (stack : List Function) (expects : Bool) : Statement → List Char → Prop
  | .start => fun t => (expects = false ∧ IsBlankRun t) ∨ Segment stack t
  | .middle => Tail stack
  | .afterName => Tail stack
  | .combinator => fun t => Tail stack (' ' :: t)
  | .pseudo => Then (IsPseudo IsClassName) (Tail stack)
  | .styleClass => Then IsClassName (Tail stack)
  | .elementName => Then IsIdentifier (Tail stack)
  | .typeName => Then IsTypeName (Tail stack)
  | .predicate => Then IsPredicate (Starts ']' (Tail stack))
  | .attachedProperty false => Then IsIdentifier (EqualsTail stack)
  | .attachedProperty true =>
      Then IsTypeName (Starts '.' (Then IsIdentifier (Starts ')' (EqualsTail stack))))
  | .template => TemplateTail stack
  | .value => ValueTail stack
  | .function .is => Then IsTypeName (Tail (.is :: stack))
  | .function .not => Segment (.not :: stack)
  | .function _ => Then IsCountText (Starts ')' (Tail stack))
  | .arguments => Then IsCountText (Starts ')' (Tail stack))
  | .done => fun _ => True

namespace Reading

/-- The text that is left completes a selector from the given statement on. -/
def Completes (r : Reading) (statement : Statement) : Prop :=
  Residual r.openFunctions r.expectsSegment statement r.rest

/-- The step is without fault, and the text that is left completes a selector from its end on. -/
def Continues (s : Step) : Prop := ∃ following, s.2 = some following ∧ s.1.Completes following

@[simp] theorem not_continues_fault (r : Reading) : ¬ Continues r.fault := by
  intro h
  obtain ⟨following, h, -⟩ := h
  exact Option.some_ne_none following h.symm

@[simp] theorem continues_goOn (r : Reading) (statement : Statement) :
    Continues (r.goOn statement) ↔ r.Completes statement := by
  constructor
  · intro h
    obtain ⟨following, h, hcompletes⟩ := h
    obtain rfl := Option.some.inj h
    exact hcompletes
  · exact fun h => ⟨statement, rfl, h⟩

private theorem completes_start_of_expect (r : Reading) :
    r.expectSegment.Completes .start ↔ Segment r.openFunctions r.rest := by
  show ((true = false ∧ _) ∨ _) ↔ _
  simp only [Bool.true_eq_false, false_and, false_or]
  exact Iff.rfl

/-! ### Components -/

private theorem readArguments_iff (r : Reading) :
    Continues r.readArguments ↔ r.Completes .arguments := by
  show _ ↔ Then IsCountText (Starts ')' (Tail r.openFunctions)) r.rest
  have hsplit := then_through_iff ')' (fun s => isCount s = true) (Tail r.openFunctions) r.rest
  have hcount : (fun s => ')' ∉ s ∧ isCount s = true) = IsCountText := by
    funext s
    rw [isCount_iff]
    rfl
  rw [hcount] at hsplit
  rw [hsplit, readArguments]
  cases htake : r.takeThrough ')' with
  | none =>
      refine iff_of_false (not_continues_fault r) fun h => ?_
      obtain ⟨span, next, hsome, -⟩ := takeThrough_of_starts h.2
      rw [htake] at hsome
      exact Option.some_ne_none _ hsome.symm
  | some taken =>
      obtain ⟨span, inner, next⟩ := taken
      obtain ⟨rfl, hdrop, hopen⟩ := starts_of_takeThrough htake
      rw [hdrop, starts_cons, eq_self_iff_true, true_and]
      by_cases hvalid : isCount (r.rest.takeWhile (· ≠ ')')) = true
      · rw [and_iff_right hvalid, ← hopen]
        simp only [hvalid, if_true]
        exact continues_goOn _ _
      · simp only [hvalid, Bool.false_eq_true, if_false, false_and, iff_false]
        exact not_continues_fault r

private theorem readValue_iff (r : Reading) : Continues r.readValue ↔ r.Completes .value := by
  show _ ↔ ValueTail r.openFunctions r.rest
  rw [ValueTail, then_through_iff, readValue, true_and]
  cases htake : r.takeThrough ']' with
  | none =>
      refine iff_of_false (not_continues_fault _) fun h => ?_
      obtain ⟨span, next, hsome, -⟩ := takeThrough_of_starts h
      rw [htake] at hsome
      exact Option.some_ne_none _ hsome.symm
  | some taken =>
      obtain ⟨span, inner, next⟩ := taken
      obtain ⟨-, hdrop, hopen⟩ := starts_of_takeThrough htake
      rw [hdrop, starts_cons, eq_self_iff_true, true_and, ← hopen]
      exact continues_goOn _ _

private theorem readFunction_iff (r : Reading) (f : Function) :
    Continues (r.readFunction f) ↔ r.Completes (.function f) := by
  cases f with
  | is => exact continues_goOn _ _
  | nthChild => exact continues_goOn _ _
  | nthLastChild => exact continues_goOn _ _
  | not => exact (continues_goOn _ _).trans (completes_start_of_expect (r.openFunction .not))

private theorem readTemplate_iff (r : Reading) :
    Continues r.readTemplate ↔ r.Completes .template := by
  show _ ↔ TemplateTail r.openFunctions r.rest
  rw [readTemplate, takeText]
  by_cases hprefix : templateText.isPrefixOf r.startSegment.rest = true
  · obtain ⟨t, ht⟩ := List.isPrefixOf_iff_prefix.mp hprefix
    have hrest : r.rest = templateText ++ t := ht.symm
    have hdrop : r.startSegment.rest.drop templateText.length = t := by
      rw [← ht, List.drop_left]
    rw [if_pos hprefix, hdrop]
    have htail : TemplateTail r.openFunctions r.rest ↔ Segment r.openFunctions t := by
      constructor
      · intro h
        obtain ⟨u, hu, heq⟩ := h
        rw [hrest] at heq
        rwa [List.append_cancel_left heq]
      · exact fun h => ⟨t, h, hrest⟩
    rw [htail]
    exact (continues_goOn _ _).trans (completes_start_of_expect _)
  · rw [if_neg hprefix]
    refine iff_of_false (not_continues_fault _) fun h => ?_
    obtain ⟨t, -, heq⟩ := h
    apply hprefix
    rw [List.isPrefixOf_iff_prefix]
    exact ⟨t, heq.symm⟩

private theorem readEquals_iff (r : Reading) :
    Continues r.readEquals ↔ EqualsTail r.openFunctions r.rest := by
  rw [equalsTail_iff, ← skipBlanks_rest, starts_rest_iff, readEquals]
  by_cases hpeek : r.skipBlanks.peek = some '='
  · rw [if_pos hpeek, and_iff_right hpeek, continues_goOn, Completes, bump_openFunctions]
    exact Iff.rfl
  · rw [if_neg hpeek]
    exact iff_of_false (not_continues_fault _) fun h => hpeek h.1

private theorem not_equalsTail_of_peek {r : Reading} {c : Char} (hpeek : r.peek = some c)
    (hblank : isBlank c = false) (hc : c ≠ '=') (stack : List Function) :
    ¬ EqualsTail stack r.rest := by
  obtain ⟨t, ht⟩ := List.head?_eq_some_iff.mp hpeek
  rw [ht]
  exact not_equalsTail hblank hc

/-- The name of a function with its parenthesis and what completes it. -/
def FunctionTail (stack : List Function) (name : List Char) : List Char → Prop :=
  Starts '(' fun t => ∃ f, Function.ofName? name = some f ∧ Residual stack false (.function f) t

private theorem isPseudo_of_function {stack : List Function} {name t : List Char} {f : Function}
    (hclass : IsClassName name) (hname : Function.ofName? name = some f)
    (ht : Residual stack false (.function f) t) :
    Then (IsPseudo IsClassName) (Tail stack) (name ++ '(' :: t) := by
  rcases ofName?_cases hname with ⟨rfl, rfl⟩ | ⟨rfl, rfl⟩ | ⟨hf, hcount⟩
  · obtain
      ⟨type, -, htype, ⟨links, -, hlinks, ⟨blanks, -, hblanks, ⟨u, hu, rfl⟩, rfl⟩, rfl⟩, rfl⟩ :=
      ht
    exact ⟨_, u, .is hclass htype hlinks hblanks, hu, by simp⟩
  · obtain ⟨before, -, hbefore, ⟨head, -, hhead,
      ⟨links, -, hlinks, ⟨blanks, -, hblanks, ⟨u, hu, rfl⟩, rfl⟩, rfl⟩, rfl⟩, rfl⟩ := ht
    exact ⟨_, u, .not hclass (.mk hbefore hhead hlinks) hblanks, hu, by simp⟩
  · have hargs : Then IsCountText (Starts ')' (Tail stack)) t := by
      rcases hf with rfl | rfl <;> exact ht
    obtain ⟨args, -, hargs, ⟨u, hu, rfl⟩, rfl⟩ := hargs
    exact ⟨_, u, .count hcount hclass hargs, hu, by simp⟩

variable [LawfulIdentifierTables]

private theorem readStyleClass_iff (r : Reading) :
    Continues r.readStyleClass ↔ r.Completes .styleClass := by
  show _ ↔ Then IsClassName (Tail r.openFunctions) r.rest
  rw [then_className_iff avoids_tail, readStyleClass]
  by_cases hhead : r.rest.head?.any isStyleClassChar = true
  · obtain ⟨span, next, htake, hrest, hopen⟩ := takeRun_of_head hhead
    rw [htake, and_iff_right hhead, ← hrest, ← hopen]
    exact continues_goOn _ _
  · rw [takeRun_of_not_head hhead]
    exact iff_of_false (not_continues_fault r) fun h => hhead h.1

private theorem readElementName_iff (r : Reading) :
    Continues r.readElementName ↔ r.Completes .elementName := by
  show _ ↔ Then IsIdentifier (Tail r.openFunctions) r.rest
  rw [then_identifier_iff avoids_tail_continue, readElementName]
  by_cases hhead : r.rest.head?.any isIdentifierStart = true
  · obtain ⟨span, next, htake, hrest, hopen⟩ := takeIdentifier_of_head hhead
    rw [htake, and_iff_right hhead, ← hrest, ← hopen]
    exact continues_goOn _ _
  · rw [takeIdentifier_of_not_head hhead]
    exact iff_of_false (not_continues_fault r) fun h => hhead h.1

private theorem readTypeName_iff (r : Reading) :
    Continues r.readTypeName ↔ r.Completes .typeName := by
  show _ ↔ Then IsTypeName (Tail r.openFunctions) r.startSegment.rest
  rw [then_typeName_iff avoids_tail_continue, readTypeName]
  by_cases hhead : r.startSegment.rest.head?.any isIdentifierStart = true
  · obtain ⟨span, next, htake, hrest, hopen⟩ := takeIdentifier_of_head hhead
    rw [startSegment_openFunctions] at hopen
    rw [and_iff_right hhead, htake, ← hrest, ← hopen]
    by_cases hbar : next.peek = some '|'
    · obtain ⟨t, ht⟩ := List.head?_eq_some_iff.mp hbar
      have hbump := bump_rest_of_cons ht
      simp only [hbar, if_true, ht, starts_cons, true_and, not_tail_bar, false_or]
      rw [then_identifier_iff avoids_tail_continue, ← hbump]
      by_cases hsecond : next.bump.rest.head?.any isIdentifierStart = true
      · obtain ⟨span', last, htake', hrest', hopen'⟩ := takeIdentifier_of_head hsecond
        rw [bump_openFunctions] at hopen'
        rw [htake', and_iff_right hsecond, ← hrest', ← hopen']
        exact continues_goOn _ _
      · rw [takeIdentifier_of_not_head hsecond]
        exact iff_of_false (not_continues_fault _) fun h => hsecond h.1
    · have hstarts : ¬ Starts '|' (Then IsIdentifier (Tail next.openFunctions)) next.rest := by
        intro h
        obtain ⟨t, -, ht⟩ := h
        exact hbar (List.head?_eq_some_iff.mpr ⟨t, ht⟩)
      simp only [hbar, if_false, hstarts, or_false]
      exact continues_goOn _ _
  · rw [takeIdentifier_of_not_head hhead]
    exact iff_of_false (not_continues_fault _) fun h => hhead h.1

/-! ### Places between components -/

private theorem readStart_iff (r : Reading) : Continues r.readStart ↔ r.Completes .start := by
  show _ ↔ ((r.expectsSegment = false ∧ IsBlankRun r.rest) ∨ Segment r.openFunctions r.rest)
  rw [isBlankRun_iff, segment_iff, ← skipBlanks_rest]
  cases hrest : r.skipBlanks.rest with
  | nil =>
      have hpeek : r.skipBlanks.peek = none := by rw [peek, hrest]; rfl
      simp only [readStart, hpeek, not_headTail_nil, or_false, and_true]
      by_cases hexpects : r.expectsSegment = true
      · have hskip : r.skipBlanks.expectsSegment = true := hexpects
        simp only [hskip, if_true, hexpects]
        exact iff_of_false (not_continues_fault _) (by simp)
      · have hskip : ¬ r.skipBlanks.expectsSegment = true := hexpects
        rw [if_neg hskip]
        exact iff_of_true ⟨.done, rfl, trivial⟩ (by simpa using hexpects)
  | cons c t =>
      have hpeek : r.skipBlanks.peek = some c := by rw [peek, hrest]; rfl
      have hbump : r.skipBlanks.startSegment.bump.rest = t := bump_rest_of_cons hrest
      simp only [readStart, hpeek, reduceCtorEq, and_false, false_or, headTail_cons_iff]
      by_cases hdelimiter : c ∈ selectorDelimiters
      · have hstart := isIdentifierStart_of_delimiter hdelimiter
        by_cases hcolon : c = ':'
        · subst hcolon
          simp [hstart, Completes, Residual, hbump]
        by_cases hdot : c = '.'
        · subst hdot
          simp [hstart, Completes, Residual, hbump]
        by_cases hhash : c = '#'
        · subst hhash
          simp [hstart, Completes, Residual, hbump]
        by_cases hcaret : c = '^'
        · subst hcaret
          simp [hstart, Completes, Residual, hbump]
        simp [hcolon, hdot, hhash, hcaret, hstart]
      · have hcolon : c ≠ ':' := fun h => hdelimiter (h ▸ by decide)
        have hdot : c ≠ '.' := fun h => hdelimiter (h ▸ by decide)
        have hhash : c ≠ '#' := fun h => hdelimiter (h ▸ by decide)
        have hcaret : c ≠ '^' := fun h => hdelimiter (h ▸ by decide)
        by_cases hstart : isIdentifierStart c = true
        · have hcompletes : r.skipBlanks.startSegment.Completes .typeName ↔
              Then IsTypeName (Tail r.openFunctions) (c :: t) := by rw [← hrest]; exact Iff.rfl
          simp [hcolon, hdot, hhash, hcaret, hstart, hcompletes]
        · simp [hcolon, hdot, hhash, hcaret, hstart]

private theorem readMiddle_iff (r : Reading) : Continues r.readMiddle ↔ r.Completes .middle := by
  show _ ↔ Tail r.openFunctions r.rest
  cases hrest : r.rest with
  | nil =>
      have hpeek : r.peek = none := by rw [peek, hrest]; rfl
      simp only [readMiddle, hpeek, tail_nil_iff, List.isEmpty_iff]
      by_cases hopen : r.openFunctions = []
      · rw [if_pos hopen]
        exact iff_of_true ⟨.done, rfl, trivial⟩ hopen
      · rw [if_neg hopen]
        exact iff_of_false (not_continues_fault _) hopen
  | cons c t =>
      have hpeek : r.peek = some c := by rw [peek, hrest]; rfl
      have hbump : r.bump.rest = t := bump_rest_of_cons hrest
      have hsegment : r.startSegment.bump.rest = t := bump_rest_of_cons hrest
      simp only [readMiddle, hpeek]
      by_cases hblank : isBlank c = true
      · have hcompletes : r.Completes .combinator ↔ Tail r.openFunctions (c :: t) := by
          show Tail r.openFunctions (' ' :: r.rest) ↔ _
          rw [hrest, tail_blank_iff (by decide), tail_blank_iff hblank, List.dropWhile_cons,
            if_pos hblank]
        have hne : ∀ d ∈ selectorDelimiters, c ≠ d := by
          intro d hd hcd
          rw [hcd, isBlank_of_delimiter hd] at hblank
          exact Bool.noConfusion hblank
        simp [hne ':' (by decide), hne '.' (by decide), hne '#' (by decide), hne '[' (by decide),
          hne '/' (by decide), hblank, hcompletes]
      · rw [Bool.not_eq_true] at hblank
        rw [tail_cons_iff hblank, attached_cons_iff, joined_cons_iff]
        by_cases hcolon : c = ':'
        · subst hcolon
          simp [Completes, Residual, hsegment]
        by_cases hdot : c = '.'
        · subst hdot
          simp [Completes, Residual, hsegment]
        by_cases hhash : c = '#'
        · subst hhash
          simp [Completes, Residual, hsegment]
        by_cases hbracket : c = '['
        · subst hbracket
          simp [Completes, Residual, hsegment]
        by_cases hslash : c = '/'
        · subst hslash
          simp [Completes, Residual, hrest]
        by_cases hgt : c = '>'
        · subst hgt
          have hcompletes : r.Completes .combinator ↔ Segment r.openFunctions t := by
            show Tail r.openFunctions (' ' :: r.rest) ↔ _
            rw [hrest, tail_blank_iff (by decide), List.dropWhile_cons, if_neg (by decide),
              joined_cons_iff, headTail_cons_iff]
            simp [isIdentifierStart_of_delimiter (c := '>') (by decide)]
          simp [hcompletes]
        by_cases hcomma : c = ','
        · subst hcomma
          have hcompletes := completes_start_of_expect r.bump
          rw [hbump, bump_openFunctions] at hcompletes
          simp [hcompletes, hblank]
        by_cases hparen : c = ')'
        · subst hparen
          cases hopen : r.openFunctions with
          | nil => simp [hblank]
          | cons f outer =>
              have hcompletes : r.bump.closeFunction.Completes .middle ↔ Tail outer t := by
                show Tail (r.bump.openFunctions.drop 1) r.bump.rest ↔ _
                rw [bump_openFunctions, hopen, hbump]
                exact Iff.rfl
              have hstack : (∃ g inner, f :: outer = g :: inner ∧ Tail inner t) ↔ Tail outer t := by
                constructor
                · intro h
                  obtain ⟨g, inner, heq, ht⟩ := h
                  obtain ⟨-, rfl⟩ := List.cons.inj heq
                  exact ht
                · exact fun h => ⟨f, outer, rfl, h⟩
              rw [hstack]
              simp [hblank, hcompletes]
        simp [hcolon, hdot, hhash, hbracket, hslash, hgt, hcomma, hparen, hblank]

private theorem readAfterName_iff (r : Reading) :
    Continues r.readAfterName ↔ r.Completes .afterName := by
  show _ ↔ Tail r.openFunctions r.rest
  by_cases hbracket : r.peek = some '['
  · obtain ⟨t, ht⟩ := List.head?_eq_some_iff.mp hbracket
    have hbump : r.startSegment.bump.rest = t := bump_rest_of_cons ht
    rw [readAfterName, if_pos hbracket, continues_goOn, ht, tail_cons_iff (by decide),
      attached_cons_iff, joined_cons_iff]
    simp [Completes, Residual, hbump]
  · rw [readAfterName, if_neg hbracket]
    exact continues_goOn _ _

private theorem readCombinator_iff (r : Reading) :
    Continues r.readCombinator ↔ r.Completes .combinator := by
  show _ ↔ Tail r.openFunctions (' ' :: r.rest)
  rw [tail_blank_iff (by decide), ← skipBlanks_rest, readCombinator]
  have hmiddle : r.skipBlanks.Completes .middle ↔ Tail r.openFunctions r.skipBlanks.rest := Iff.rfl
  cases hrest : r.skipBlanks.rest with
  | nil =>
      have hpeek : r.skipBlanks.peek = none := by rw [peek, hrest]; rfl
      simp only [hpeek, continues_goOn, hmiddle, hrest, tail_nil_iff, joined_nil_iff,
        not_headTail_nil, or_false]
  | cons c t =>
      have hblank : isBlank c = false := by
        have hnot := List.head?_dropWhile_not isBlank r.rest
        rw [← skipBlanks_rest, hrest] at hnot
        simpa using hnot
      have hpeek : r.skipBlanks.peek = some c := by rw [peek, hrest]; rfl
      have hbump : r.skipBlanks.bump.rest = t := bump_rest_of_cons hrest
      rw [joined_cons_iff, headTail_cons_iff]
      by_cases hgt : c = '>'
      · subst hgt
        have hstart := isIdentifierStart_of_delimiter (c := '>') (by decide)
        have hcompletes := completes_start_of_expect r.skipBlanks.bump.skipBlanks
        rw [skipBlanks_rest, skipBlanks_openFunctions, bump_openFunctions, hbump, segment_iff,
          List.dropWhile_idempotent, ← segment_iff, skipBlanks_openFunctions] at hcompletes
        simp [hpeek, hcompletes, hstart]
      by_cases hslash : c = '/'
      · subst hslash
        have hstart := isIdentifierStart_of_delimiter (c := '/') (by decide)
        have hcompletes : r.skipBlanks.Completes .template ↔
            TemplateTail r.openFunctions ('/' :: t) := by rw [← hrest]; exact Iff.rfl
        simp [hpeek, hcompletes, hstart]
      by_cases hcomma : c = ','
      · subst hcomma
        have hstart := isIdentifierStart_of_delimiter (c := ',') (by decide)
        rw [hrest, tail_cons_iff hblank, attached_cons_iff, joined_cons_iff] at hmiddle
        simp [hpeek, hmiddle, hstart]
      by_cases hparen : c = ')'
      · subst hparen
        have hstart := isIdentifierStart_of_delimiter (c := ')') (by decide)
        rw [hrest, tail_cons_iff hblank, attached_cons_iff, joined_cons_iff] at hmiddle
        simp [hpeek, hmiddle, hstart]
      have hcompletes := completes_start_of_expect r.skipBlanks
      rw [skipBlanks_openFunctions, hrest, segment_iff, List.dropWhile_cons,
        if_neg (by simp [hblank]), headTail_cons_iff] at hcompletes
      simp only [hgt, hslash, hcomma, hparen, false_and, or_self, false_or, ← hcompletes]
      split
      · next heq => exact absurd (Option.some.inj (hpeek.symm.trans heq)) hgt
      · next heq => exact absurd (Option.some.inj (hpeek.symm.trans heq)) hslash
      · next heq => exact absurd (hpeek.symm.trans heq) (by simp)
      · next heq => exact absurd (Option.some.inj (hpeek.symm.trans heq)) hcomma
      · next heq => exact absurd (Option.some.inj (hpeek.symm.trans heq)) hparen
      · exact continues_goOn _ _

/-! ### Functions -/

private theorem functionTail_of_name {stack : List Function} {name t : List Char} {f : Function}
    (hclass : IsClassName name) (hname : Function.ofName? name = some f)
    (ht : Residual stack false (.function f) t) :
    (name ++ '(' :: t).head?.any isStyleClassChar = true ∧
      FunctionTail stack ((name ++ '(' :: t).takeWhile isStyleClassChar)
        ((name ++ '(' :: t).dropWhile isStyleClassChar) := by
  have havoid : Avoids isStyleClassChar (Starts '(' fun _ => True) :=
    avoids_starts (isStyleClassChar_of_delimiter (by decide)) _
  have hstarts : Starts '(' (fun _ => True) ('(' :: t) := ⟨t, trivial, rfl⟩
  obtain ⟨hne, hchars⟩ := hclass
  rw [takeWhile_append_of_avoids havoid hchars hstarts,
    dropWhile_append_of_avoids havoid hchars hstarts]
  obtain ⟨c, cs, rfl⟩ := List.exists_cons_of_ne_nil hne
  exact ⟨by simpa using hchars c List.mem_cons_self, t, ⟨f, hname, ht⟩, rfl⟩

/-- Behind a colon there is a pseudo-class or the name of a function with its parenthesis. -/
theorem then_pseudo_iff (stack : List Function) (text : List Char) :
    Then (IsPseudo IsClassName) (Tail stack) text ↔
      text.head?.any isStyleClassChar = true ∧
        (Tail stack (text.dropWhile isStyleClassChar) ∨
          FunctionTail stack (text.takeWhile isStyleClassChar)
            (text.dropWhile isStyleClassChar)) := by
  constructor
  · intro h
    obtain ⟨s, t, hs, ht, rfl⟩ := h
    cases hs with
    | className hs =>
        have hclass := (then_className_iff avoids_tail (s ++ t)).mp ⟨s, t, hs, ht, rfl⟩
        exact ⟨hclass.1, .inl hclass.2⟩
    | @count name args hname hclass hargs =>
        obtain ⟨f, hf, hcount⟩ : ∃ f, Function.ofName? name = some f ∧
            (f = .nthChild ∨ f = .nthLastChild) := by
          cases hname with
          | nthChild => exact ⟨.nthChild, rfl, .inl rfl⟩
          | nthLastChild => exact ⟨.nthLastChild, rfl, .inr rfl⟩
        have hresidual : Residual stack false (.function f) (args ++ ')' :: t) := by
          rcases hcount with rfl | rfl <;> exact ⟨args, _, hargs, ⟨t, ht, rfl⟩, rfl⟩
        obtain ⟨hhead, htail⟩ := functionTail_of_name hclass hf hresidual
        simp only [List.append_assoc, List.cons_append, List.nil_append]
        exact ⟨hhead, .inr htail⟩
    | @is type links blanks hclass htype hlinks hblanks =>
        have hresidual : Residual stack false (.function .is)
            (type ++ (links ++ (blanks ++ ')' :: t))) :=
          ⟨type, _, htype, ⟨links, _, hlinks, ⟨blanks, _, hblanks, ⟨t, ht, rfl⟩, rfl⟩, rfl⟩, rfl⟩
        obtain ⟨hhead, htail⟩ := functionTail_of_name hclass rfl hresidual
        simp only [List.append_assoc, List.cons_append, List.nil_append] at hhead htail ⊢
        exact ⟨hhead, .inr htail⟩
    | @not chain blanks hclass hchain hblanks =>
        cases hchain with
        | @mk before head links hbefore hhead hlinks =>
            have hresidual : Residual stack false (.function .not)
                (before ++ (head ++ (links ++ (blanks ++ ')' :: t)))) :=
              ⟨before, _, hbefore, ⟨head, _, hhead,
                ⟨links, _, hlinks, ⟨blanks, _, hblanks, ⟨t, ht, rfl⟩, rfl⟩, rfl⟩, rfl⟩, rfl⟩
            obtain ⟨hfirst, htail⟩ := functionTail_of_name hclass rfl hresidual
            simp only [List.append_assoc, List.cons_append, List.nil_append] at hfirst htail ⊢
            exact ⟨hfirst, .inr htail⟩
  · intro h
    obtain ⟨hhead, htail | ⟨t, ⟨f, hname, ht⟩, heq⟩⟩ := h
    · obtain ⟨s, t, hs, ht, heq⟩ := (then_className_iff avoids_tail text).mpr ⟨hhead, htail⟩
      exact ⟨s, t, .className hs, ht, heq⟩
    · have hsplit : text = text.takeWhile isStyleClassChar ++ '(' :: t := by
        rw [← heq, List.takeWhile_append_dropWhile]
      have hclass : IsClassName (text.takeWhile isStyleClassChar) :=
        nonempty_run_takeWhile hhead
      rw [hsplit]
      exact isPseudo_of_function hclass hname ht

private theorem readPseudo_iff (r : Reading) : Continues r.readPseudo ↔ r.Completes .pseudo := by
  show _ ↔ Then (IsPseudo IsClassName) (Tail r.openFunctions) r.rest
  rw [then_pseudo_iff, readPseudo]
  by_cases hhead : r.rest.head?.any isStyleClassChar = true
  · obtain ⟨span, next, htake, hrest, hopen⟩ := takeRun_of_head hhead
    rw [htake, and_iff_right hhead, ← hrest, ← hopen, FunctionTail, starts_rest_iff]
    by_cases hparen : next.peek = some '('
    · have htail : ¬ Tail next.openFunctions next.rest := by
        obtain ⟨t, ht⟩ := List.head?_eq_some_iff.mp hparen
        rw [ht]
        intro h
        rcases tail_head h with hblank | hmem
        · exact absurd hblank (by decide)
        · exact absurd hmem (by decide)
      simp only [hparen, if_true, htail, false_or, true_and]
      cases hname : Function.ofName? (r.rest.takeWhile isStyleClassChar) with
      | none => simp
      | some f =>
          simp only [continues_goOn, Option.some.injEq, exists_eq_left', Completes,
            bump_openFunctions, note_openFunctions, note_bump_rest]
          cases f <;> exact Iff.rfl
    · simp only [hparen, if_false, false_and, or_false]
      exact continues_goOn _ _
  · rw [takeRun_of_not_head hhead]
    exact iff_of_false (not_continues_fault r) fun h => hhead h.1

/-! ### Conditions -/

private theorem readPredicate_iff (r : Reading) :
    Continues r.readPredicate ↔ r.Completes .predicate := by
  show _ ↔ Then IsPredicate (Starts ']' (Tail r.openFunctions)) r.rest
  have hdot (Q : List Char → Prop) : Avoids isIdentifierContinue (Starts '.' Q) :=
    avoids_starts (isIdentifierContinue_of_delimiter (by decide)) Q
  rw [then_predicate_iff, readPredicate]
  generalize hcleared : (r.note _).skipBlanks = s
  have hrest : r.rest.dropWhile isBlank = s.rest := by rw [← hcleared]; rfl
  have hopen : r.openFunctions = s.openFunctions := by rw [← hcleared]; rfl
  rw [hrest, hopen, pathTail_iff, starts_rest_iff, then_identifier_iff avoids_equalsTail,
    then_typeName_iff (hdot _) s.rest, ← and_or_left]
  by_cases hparen : s.peek = some '('
  · have hhead : ¬ s.rest.head?.any isIdentifierStart = true := by
      rw [show s.rest.head? = some '(' from hparen]
      simp [isIdentifierStart_of_delimiter (c := '(') (by decide)]
    simp only [hparen, if_true, true_and, hhead, Bool.false_eq_true, false_and, or_false,
      continues_goOn, Completes, bump_openFunctions]
    exact Iff.rfl
  · simp only [hparen, if_false, false_and, false_or]
    by_cases hhead : s.rest.head?.any isIdentifierStart = true
    · obtain ⟨span, next, htake, hnext, hopen'⟩ := takeIdentifier_of_head hhead
      rw [htake, and_iff_right hhead, ← hnext, ← hopen', starts_rest_iff, starts_rest_iff,
        then_identifier_iff (hdot _)]
      by_cases hbar : next.peek = some '|'
      · have hequals := not_equalsTail_of_peek hbar (by decide) (by decide) next.openFunctions
        simp only [hbar, if_true, hequals, false_or, true_and]
        by_cases hsecond : next.bump.rest.head?.any isIdentifierStart = true
        · obtain ⟨span', last, htake', hlast, hopen''⟩ := takeIdentifier_of_head hsecond
          rw [bump_openFunctions] at hopen''
          rw [htake', ← hlast, ← hopen'', starts_rest_iff]
          by_cases hpoint : last.peek = some '.'
          · simp [hpoint, hsecond, Completes, Residual]
          · simp [hpoint]
        · simp [takeIdentifier_of_not_head hsecond, hsecond]
      · by_cases hpoint : next.peek = some '.'
        · have hequals := not_equalsTail_of_peek hpoint (by decide) (by decide) next.openFunctions
          simp [hpoint, hequals, Completes, Residual]
        · simp only [hbar, hpoint, if_false, false_and, or_false]
          exact readEquals_iff _
    · simp [takeIdentifier_of_not_head hhead, hhead]

private theorem readAttachedType_iff (r : Reading) (Q : List Char → Prop) :
    Then IsTypeName (Starts '.' Q) r.rest ↔
      r.readAttachedType.2 = true ∧ Q r.readAttachedType.1.rest := by
  have hdot : Avoids isIdentifierContinue (Starts '.' Q) :=
    avoids_starts (isIdentifierContinue_of_delimiter (by decide)) Q
  rw [then_typeName_iff hdot, readAttachedType]
  by_cases hhead : r.rest.head?.any isIdentifierStart = true
  · obtain ⟨span, next, htake, hnext, -⟩ := takeIdentifier_of_head hhead
    rw [htake, and_iff_right hhead, ← hnext, starts_rest_iff, starts_rest_iff,
      then_identifier_iff hdot]
    by_cases hbar : next.peek = some '|'
    · simp only [hbar, if_true, Option.some.injEq, Char.reduceEq, false_and, false_or, true_and]
      generalize hqualified : next.bump.note _ = qualified
      have hrest : next.bump.rest = qualified.rest := by rw [← hqualified]; rfl
      rw [hrest]
      by_cases hsecond : qualified.rest.head?.any isIdentifierStart = true
      · obtain ⟨span', last, htake', hlast, -⟩ := takeIdentifier_of_head hsecond
        rw [htake', and_iff_right hsecond, ← hlast, starts_rest_iff]
        by_cases hpoint : last.peek = some '.'
        · simp [hpoint]
        · simp [hpoint]
      · simp [takeIdentifier_of_not_head hsecond, hsecond]
    · by_cases hpoint : next.peek = some '.'
      · simp [hpoint]
      · simp [hpoint, hbar]
  · simp [takeIdentifier_of_not_head hhead, hhead]

private theorem readAttachedProperty_iff (r : Reading) (inParentheses : Bool) :
    Continues (r.readAttachedProperty inParentheses) ↔
      r.Completes (.attachedProperty inParentheses) := by
  cases inParentheses with
  | false =>
      show _ ↔ Then IsIdentifier (EqualsTail r.openFunctions) r.rest
      rw [then_identifier_iff avoids_equalsTail]
      by_cases hhead : r.rest.head?.any isIdentifierStart = true
      · obtain ⟨span, next, htake, hrest, hopen⟩ := takeIdentifier_of_head hhead
        rw [and_iff_right hhead, ← hrest, ← hopen]
        simp only [readAttachedProperty, Bool.false_eq_true, if_false, Bool.not_true, htake,
          Bool.not_false, if_true]
        exact readEquals_iff _
      · simp [readAttachedProperty, takeIdentifier_of_not_head hhead, hhead]
  | true =>
      show _ ↔ Then IsTypeName (Starts '.' (Then IsIdentifier (Starts ')' (EqualsTail _)))) r.rest
      have hclose (Q : List Char → Prop) : Avoids isIdentifierContinue (Starts ')' Q) :=
        avoids_starts (isIdentifierContinue_of_delimiter (by decide)) Q
      rw [readAttachedType_iff, then_identifier_iff (hclose _), ← readAttachedType_openFunctions,
        readAttachedProperty]
      simp only [if_true]
      obtain ⟨s, typed⟩ := r.readAttachedType
      cases typed with
      | false => simp
      | true =>
          by_cases hhead : s.rest.head?.any isIdentifierStart = true
          · obtain ⟨span, next, htake, hrest, hopen⟩ := takeIdentifier_of_head hhead
            simp only [htake, Bool.not_true, Bool.false_eq_true, if_false, true_and, hhead,
              note_peek, ← hrest, ← hopen, starts_rest_iff]
            by_cases hparen : next.peek = some ')'
            · simp [hparen, readEquals_iff]
            · simp [hparen]
          · simp [takeIdentifier_of_not_head hhead, hhead]

/-! ### Runs -/

private theorem step_iff (r : Reading) {statement : Statement} (h : statement ≠ .done) :
    Continues (r.step statement) ↔ r.Completes statement := by
  cases statement with
  | start => exact r.readStart_iff
  | middle => exact r.readMiddle_iff
  | pseudo => exact r.readPseudo_iff
  | styleClass => exact r.readStyleClass_iff
  | elementName => exact r.readElementName_iff
  | afterName => exact r.readAfterName_iff
  | combinator => exact r.readCombinator_iff
  | typeName => exact r.readTypeName_iff
  | predicate => exact r.readPredicate_iff
  | attachedProperty inParentheses => exact r.readAttachedProperty_iff inParentheses
  | template => exact r.readTemplate_iff
  | value => exact r.readValue_iff
  | function f => exact r.readFunction_iff f
  | arguments => exact r.readArguments_iff
  | done => exact absurd rfl h

/-- A run is without fault exactly if the text completes a selector from its first statement on. -/
theorem run_failed_iff (r : Reading) (statement : Statement) (h : r.failed = false) :
    (r.run statement).failed = false ↔ r.Completes statement := by
  induction r, statement using run.induct with
  | case1 r =>
      rw [run, if_pos rfl]
      exact iff_of_true h trivial
  | case2 r statement hne next hstep =>
      have hnot : ¬ Continues (r.step statement) := by
        rw [hstep]
        exact not_continues_fault next
      rw [run_of_fault hne hstep, ← r.step_iff hne]
      exact iff_of_false (by simp) hnot
  | case3 r statement hne next following hstep ih =>
      have hfailed : next.failed = false := by
        have hkept := r.step_failed statement
        rwa [hstep, h] at hkept
      have hgoes : Continues (r.step statement) ↔ next.Completes following := by
        rw [hstep]
        exact continues_goOn next following
      rw [run_of_goes hne hstep, ← r.step_iff hne, hgoes]
      exact ih hfailed

/-- Reading a whole text is without fault exactly on the selectors whose functions have class names
for their names. -/
theorem ofText_failed_iff (text : List Char) :
    (ofText text).failed = false ↔ IsSelector IsClassName text := by
  rw [ofText, run_failed_iff _ _ rfl, isSelector_iff]
  show ((false = false ∧ IsBlankRun text) ∨ Segment [] text) ↔ _
  rw [eq_self_iff_true, true_and]

/-! ### The names of functions -/

private theorem then_pseudo_of_isSelector {s : List Char} (h : IsSelector IsClassName (':' :: s)) :
    Then (IsPseudo IsClassName) (Tail []) s := by
  have hcolon : isBlank ':' = false := by decide
  rcases (isSelector_iff _).mp h with hblank | hsegment
  · exact absurd (hblank ':' List.mem_cons_self) (by simp [hcolon])
  · rw [segment_iff, List.dropWhile_cons, if_neg (by simp [hcolon]), headTail_cons_iff] at hsegment
    simpa [isIdentifierStart_of_delimiter (c := ':') (by decide)] using hsegment

/-- A word before a parenthesis is read as the name of a function, so all of it is a class name. -/
private theorem isClassName_of_pseudo {name rest : List Char}
    (hname : ∀ c ∈ name, isBlank c = false ∧ c ∉ selectorDelimiters)
    (h : Then (IsPseudo IsClassName) (Tail []) (name ++ '(' :: rest)) : IsClassName name := by
  obtain ⟨hhead, htail⟩ := (then_pseudo_iff [] _).mp h
  refine ⟨?_, ?_⟩
  · rintro rfl
    simp [isStyleClassChar_of_delimiter (c := '(') (by decide)] at hhead
  cases hdrop : name.dropWhile isStyleClassChar with
  | nil => exact List.dropWhile_eq_nil_iff.mp hdrop
  | cons c cs =>
      have hmem : c ∈ name := (List.dropWhile_sublist _).subset (hdrop ▸ List.mem_cons_self)
      obtain ⟨hblank, hdelimiter⟩ := hname c hmem
      rw [List.dropWhile_append, hdrop] at htail
      rcases htail with htail | htail
      · rcases tail_head_delimiter htail with hspace | hmark
        · exact Bool.noConfusion (hblank.symm.trans hspace)
        · exact absurd hmark hdelimiter
      · obtain ⟨rfl, -⟩ := (starts_cons _ _ _ _).mp htail
        exact absurd (by decide) hdelimiter

end Reading

end Tables

private theorem isClassName_of_mem_functionNames {name : List Char} (h : name ∈ functionNames) :
    IsClassName name := by
  have hall : functionNames.all (fun name =>
      !name.isEmpty && name.all isStyleClassChar) = true := by decide +kernel
  simpa [IsClassName] using List.all_eq_true.mp hall name h

end XamlAssist.Selector
