import XamlAssist.Proofs.Extension.Grammar
import XamlAssist.Proofs.Extension.Reading

/-!
# Reading the arguments of an extension

The places inside an extension, what each kind of character does there, and where a word, a label, a
quoted text and the separator of two arguments lead. All along them the reading stays in its
extension.
-/

namespace XamlAssist.Extension

open Text

theorem ne_of_isTokenChar {c : Char} (h : isTokenChar c = true) :
    isAsciiBlank c = false ∧ c ≠ '=' ∧ c ≠ ',' ∧ c ≠ '{' ∧ c ≠ '}' ∧ c ≠ '\x27' := by
  simpa [isTokenChar, and_assoc] using h

theorem ne_of_isAsciiBlank {c : Char} (h : isAsciiBlank c = true) :
    c ≠ '=' ∧ c ≠ ',' ∧ c ≠ '{' ∧ c ≠ '}' ∧ c ≠ '\x27' := by
  simp only [isAsciiBlank, isMarkupBlank, Bool.or_eq_true, beq_iff_eq] at h
  rcases h with (((rfl | rfl) | rfl) | rfl) | rfl <;> decide

/-! ### Places inside an extension -/

namespace Level

/-- Before an argument. -/
def IsFresh (level : Level) : Prop :=
  (level.phase = .value ∨ level.phase = .argumentName) ∧ level.argument = {}

/-- In or behind a word that may turn out to be the name of the argument. -/
def IsNamed (level : Level) : Prop :=
  level.argument.inQuotes = false ∧
    (level.phase = .value ∧ level.argument.nameStart = none ∨
      (level.phase = .argumentName ∨ level.phase = .afterName) ∧
        level.argument.nameStart.isSome = true)

/-- Behind the `=` of an argument. -/
def IsLabelled (level : Level) : Prop :=
  level.phase = .beforeValue ∧ level.argument.inQuotes = false ∧
    level.argument.nameStart.isSome = true

/-- In the unquoted value of an argument with a name. -/
def IsPhrase (level : Level) : Prop :=
  level.phase = .value ∧ level.argument.inQuotes = false ∧
    level.argument.nameStart.isSome = true ∧ level.argument.valueStart.isSome = true

/-- Inside quotes. -/
def IsQuoted (level : Level) : Prop := level.phase = .value ∧ level.argument.inQuotes = true

/-- Where a quote or a bracket opens a value. -/
def AwaitsValue (level : Level) : Prop := level.IsFresh ∨ level.phase = .beforeValue

/-- Where an argument or the whole extension may end. -/
def IsRest (level : Level) : Prop :=
  level.phase = .value ∧ level.argument.inQuotes = false ∨ level.phase = .argumentName ∨
    level.phase = .afterName ∨ level.phase = .afterValue

variable {level : Level}

theorem IsFresh.isRest (h : level.IsFresh) : level.IsRest := by
  rcases h with ⟨hphase | hphase, hargument⟩
  · exact .inl ⟨hphase, by rw [hargument]⟩
  · exact .inr (.inl hphase)

theorem IsNamed.isRest (h : level.IsNamed) : level.IsRest := by
  rcases h with ⟨hquotes, ⟨hphase, -⟩ | ⟨hphase | hphase, -⟩⟩ <;> simp [IsRest, hphase, hquotes]

theorem IsPhrase.isRest (h : level.IsPhrase) : level.IsRest := .inl ⟨h.1, h.2.1⟩

private theorem IsLabelled.awaitsValue (h : level.IsLabelled) : level.AwaitsValue := .inr h.1

end Level

open Cursor

namespace Reading

/-- The reading is in the extension `placed`, which stands inside the levels `outer`, behind its
name and behind `commas` of its commas, and at one of the places that `place` allows. -/
structure At (r : Reading) (place : Level → Prop) (placed : Nat × Ext) (commas : Nat)
    (outer : List Level) : Prop where
  literal : r.literal = false
  nameStart : r.level.nameStart = placed.2.nameStart placed.1
  nameStop : r.level.nameStop = some (placed.2.nameStop placed.1)
  commas : r.level.commas = commas
  outer : r.outer = outer
  place : place r.level

section Steps

variable {r : Reading} {c : Char} {placed : Nat × Ext} {commas : Nat} {outer : List Level}

theorem At.mono {P Q : Level → Prop} (h : r.At P placed commas outer)
    (hPQ : ∀ level, P level → Q level) : r.At Q placed commas outer :=
  { h with place := hPQ _ h.place }

/-- A character that neither opens nor closes an extension nor ends an argument moves a reading to
another place of its extension. -/
theorem At.moves {P Q : Level → Prop} (h : r.At P placed commas outer) {level : Level}
    (hreact : r.react c = { r.toCursor with level }) (hstart : level.nameStart = r.level.nameStart)
    (hstop : level.nameStop = r.level.nameStop) (hcommas : level.commas = r.level.commas)
    (hplace : Q level) : (r.step c).At Q placed commas outer where
  literal := by simp [step, h.literal, hreact]
  nameStart := by simp [step, h.literal, hreact, hstart, h.nameStart]
  nameStop := by simp [step, h.literal, hreact, hstop, h.nameStop]
  commas := by simp [step, h.literal, hreact, hcommas, h.commas]
  outer := by simp [step, h.literal, hreact, h.outer]
  place := by simpa [step, h.literal, hreact] using hplace

theorem At.stays {P : Level → Prop} (h : r.At P placed commas outer)
    (hreact : r.react c = r.toCursor) :
    (r.step c).At P placed commas outer :=
  h.moves hreact rfl rfl rfl h.place

theorem At.step_fresh_blank (h : r.At Level.IsFresh placed commas outer)
    (hc : isAsciiBlank c = true) : (r.step c).At Level.IsFresh placed commas outer := by
  obtain ⟨heq, hcomma, hopen, hclose, hquote⟩ := ne_of_isAsciiBlank hc
  obtain ⟨hphase | hphase, hargument⟩ := h.place
  · exact h.stays (by simp [react, accept, readValue, *])
  · exact h.stays (by simp [react, accept, readArgumentName, *])

private theorem At.step_fresh_token (h : r.At Level.IsFresh placed commas outer)
    (hc : isTokenChar c = true) : (r.step c).At Level.IsNamed placed commas outer := by
  obtain ⟨hblank, heq, hcomma, hopen, hclose, hquote⟩ := ne_of_isTokenChar hc
  obtain ⟨hphase | hphase, hargument⟩ := h.place
  · have hreact : r.react c = r.startValue := by
      simp [react, accept, readValue, *]
    exact h.moves hreact rfl rfl rfl (by simp [Level.IsNamed, hphase, hargument])
  · have hreact : r.react c = { r with level.argument.nameStart := some r.pos } := by
      simp [react, accept, readArgumentName, *]
    exact h.moves hreact rfl rfl rfl (by simp [Level.IsNamed, hphase, hargument])

private theorem At.step_named_blank (h : r.At Level.IsNamed placed commas outer)
    (hc : isAsciiBlank c = true) : (r.step c).At Level.IsNamed placed commas outer := by
  obtain ⟨heq, hcomma, hopen, hclose, hquote⟩ := ne_of_isAsciiBlank hc
  obtain ⟨hquotes, ⟨hphase, hname⟩ | ⟨hphase | hphase, hname⟩⟩ := h.place
  · exact h.stays (by simp [react, accept, readValue, *])
  · have hreact : r.react c =
        { r with level.argument.nameStop := some r.pos, level.phase := .afterName } := by
      simp [react, accept, readArgumentName, *]
    exact h.moves hreact rfl rfl rfl ⟨hquotes, .inr ⟨.inr rfl, hname⟩⟩
  · exact h.stays (by simp [react, accept, readAfterName, *])

private theorem At.step_named_token (h : r.At Level.IsNamed placed commas outer)
    (hc : isTokenChar c = true) : (r.step c).At Level.IsNamed placed commas outer := by
  obtain ⟨hblank, heq, hcomma, hopen, hclose, hquote⟩ := ne_of_isTokenChar hc
  obtain ⟨hquotes, ⟨hphase, hname⟩ | ⟨hphase | hphase, hname⟩⟩ := h.place
  · have hreact : r.react c = r.startValue := by simp [react, accept, readValue, *]
    exact h.moves hreact rfl rfl rfl ⟨hquotes, .inl ⟨hphase, hname⟩⟩
  · have hreact : r.react c =
        { r with level.argument.nameStart := some (r.level.argument.nameStart.getD r.pos) } := by
      simp [react, accept, readArgumentName, *]
    exact h.moves hreact rfl rfl rfl ⟨hquotes, .inr ⟨.inl hphase, rfl⟩⟩
  · have hreact : r.react c =
        { r with level.argument := { nameStart := some r.pos }, level.phase := .argumentName } := by
      simp [react, accept, readAfterName, *]
    exact h.moves hreact rfl rfl rfl ⟨rfl, .inr ⟨.inl rfl, rfl⟩⟩

private theorem At.step_named_equals (h : r.At Level.IsNamed placed commas outer) :
    (r.step '=').At Level.IsLabelled placed commas outer := by
  have hblank : isAsciiBlank '=' = false := rfl
  obtain ⟨hquotes, ⟨hphase, hname⟩ | ⟨hphase | hphase, hname⟩⟩ := h.place
  · have hreact : r.react '=' = r.nameFromValue r.trimmedPos := by
      simp [react, accept, readValue, *]
    exact h.moves hreact rfl rfl rfl ⟨rfl, rfl, rfl⟩
  · have hreact : r.react '=' =
        { r with
          level.argument.nameStart := some (r.level.argument.nameStart.getD r.pos)
          level.argument.nameStop := some (max r.pos (r.level.argument.nameStart.getD r.pos))
          level.phase := .beforeValue } := by
      simp [react, accept, readArgumentName, *]
    exact h.moves hreact rfl rfl rfl ⟨rfl, hquotes, rfl⟩
  · have hreact : r.react '=' = r.moveTo .beforeValue := by simp [react, accept, readAfterName, *]
    exact h.moves hreact rfl rfl rfl ⟨rfl, hquotes, hname⟩

private theorem At.step_labelled_blank (h : r.At Level.IsLabelled placed commas outer)
    (hc : isAsciiBlank c = true) : (r.step c).At Level.IsLabelled placed commas outer :=
  h.stays (by simp [react, accept, readBeforeValue, h.place.1, hc])

private theorem At.step_labelled_first (h : r.At Level.IsLabelled placed commas outer)
    (hblank : isAsciiBlank c = false) (hquote : c ≠ '\x27')
    (hc : c ≠ ',' ∧ c ≠ '{' ∧ c ≠ '}') : (r.step c).At Level.IsPhrase placed commas outer := by
  obtain ⟨hphase, hquotes, hname⟩ := h.place
  have hreact : r.react c =
      { r with level.argument.valueStart := some r.pos, level.phase := .value } := by
    simp [react, accept, readBeforeValue, *]
  exact h.moves hreact rfl rfl rfl ⟨rfl, hquotes, hname, rfl⟩

private theorem At.step_phrase (h : r.At Level.IsPhrase placed commas outer)
    (hc : c ≠ ',' ∧ c ≠ '{' ∧ c ≠ '}') : (r.step c).At Level.IsPhrase placed commas outer := by
  obtain ⟨hphase, hquotes, hname, hvalue⟩ := h.place
  have hname' := Option.isSome_iff_ne_none.mp hname
  have hvalue' := Option.isSome_iff_ne_none.mp hvalue
  by_cases hblank : isAsciiBlank c = true
  · exact h.stays (by simp [react, accept, readValue, *])
  · have hreact : r.react c = r.startValue := by simp [react, accept, readValue, *]
    exact h.moves hreact rfl rfl rfl ⟨hphase, hquotes, hname, rfl⟩

private theorem At.step_awaits_quote (h : r.At Level.AwaitsValue placed commas outer) :
    (r.step '\x27').At Level.IsQuoted placed commas outer := by
  have hblank : isAsciiBlank '\x27' = false := rfl
  have hreact : r.react '\x27' = r.openQuote := by
    rcases h.place with ⟨hphase | hphase, hargument⟩ | hphase
    · simp [react, accept, readValue, *]
    · simp [react, accept, readArgumentName, *]
    · simp [react, accept, readBeforeValue, *]
  exact h.moves hreact rfl rfl rfl ⟨rfl, rfl⟩

private theorem At.step_quoted (h : r.At Level.IsQuoted placed commas outer) (hc : c ≠ '\x27') :
    (r.step c).At Level.IsQuoted placed commas outer :=
  h.stays (by simp [react, accept, readValue, h.place.1, h.place.2, hc])

private theorem At.step_quoted_quote (h : r.At Level.IsQuoted placed commas outer) :
    (r.step '\x27').At Level.IsRest placed commas outer := by
  have hreact : r.react '\x27' =
      { r with
        level.argument.valueStop := some r.pos
        level.argument.inQuotes := false
        level.phase := .afterValue } := by
    simp [react, accept, readValue, h.place.1, h.place.2]
  exact h.moves hreact rfl rfl rfl (.inr (.inr (.inr rfl)))

theorem At.step_rest_blank (h : r.At Level.IsRest placed commas outer)
    (hc : isAsciiBlank c = true) : (r.step c).At Level.IsRest placed commas outer := by
  obtain ⟨heq, hcomma, hopen, hclose, hquote⟩ := ne_of_isAsciiBlank hc
  rcases h.place with ⟨hphase, hquotes⟩ | hphase | hphase | hphase
  · exact h.stays (by simp [react, accept, readValue, *])
  · by_cases hname : r.level.argument.nameStart.isSome = true
    · have hreact : r.react c =
          { r with level.argument.nameStop := some r.pos, level.phase := .afterName } := by
        simp [react, accept, readArgumentName, *]
      exact h.moves hreact rfl rfl rfl (.inr (.inr (.inl rfl)))
    · exact h.stays (by simp [react, accept, readArgumentName, *])
  · exact h.stays (by simp [react, accept, readAfterName, *])
  · exact h.stays (by simp [react, accept, *])

private theorem At.step_comma (h : r.At Level.IsRest placed commas outer) :
    (r.step ',').At Level.IsFresh placed (commas + 1) outer := by
  have hblank : isAsciiBlank ',' = false := rfl
  have hreact : r.react ',' = r.nextArgument ∨
      r.react ',' = (r.endValue r.trimmedPos).nextArgument := by
    rcases h.place with ⟨hphase, hquotes⟩ | hphase | hphase | hphase
    · simp [react, accept, readValue, *]
    · simp [react, accept, readArgumentName, *]
    · simp [react, accept, readAfterName, *]
    · simp [react, accept, *]
  have hlevel : (r.react ',').level =
      { r.level with commas := r.level.commas + 1, argument := {}, phase := .argumentName } := by
    rcases hreact with hreact | hreact <;> rw [hreact] <;> rfl
  have houter : (r.react ',').outer = r.outer := r.outer_pass_of_ne (by decide) (by decide)
  have hliteral : (r.react ',').literal = r.literal := by
    rcases hreact with hreact | hreact <;> rw [hreact] <;> rfl
  constructor <;>
    simp [step, hlevel, houter, hliteral, h.literal, h.nameStart, h.nameStop, h.commas, h.outer,
      Level.IsFresh]

end Steps

/-! ### Runs of characters -/

/-- The reading is in the extension `placed`, which stands inside the levels `outer`, behind its
name. -/
structure Shows (r : Reading) (placed : Nat × Ext) (outer : List Level) : Prop where
  literal : r.literal = false
  nameStart : r.level.nameStart = placed.2.nameStart placed.1
  nameStop : r.level.nameStop.getD r.pos = placed.2.nameStop placed.1
  outer : r.outer = outer

/-- All along `s` the reading stays in its extension, and `s` leads it to `place`. -/
structure Leads (r : Reading) (s : List Char) (place : Level → Prop) (placed : Nat × Ext)
    (commas : Nat) (outer : List Level) : Prop where
  shows : ∀ t, t <+: s → (r.readAll t).Shows placed outer
  arrives : (r.readAll s).At place placed commas outer

section Runs

variable {r : Reading} {placed : Nat × Ext} {commas : Nat} {outer : List Level}
  {P Q : Level → Prop}

theorem At.shows (h : r.At P placed commas outer) : r.Shows placed outer :=
  ⟨h.literal, h.nameStart, by rw [h.nameStop, Option.getD_some], h.outer⟩

private theorem At.leads_nil (h : r.At P placed commas outer) :
    r.Leads [] P placed commas outer where
  shows t ht := by
    rw [List.prefix_nil.mp ht]
    exact h.shows
  arrives := h

theorem Leads.cons {c : Char} {s : List Char} (h : r.Shows placed outer)
    (hrest : (r.step c).Leads s P placed commas outer) :
    r.Leads (c :: s) P placed commas outer where
  shows t ht := by
    cases t with
    | nil => exact h
    | cons d t =>
        obtain ⟨rfl, htail⟩ := List.cons_prefix_cons.mp ht
        exact hrest.shows t htail
  arrives := hrest.arrives

theorem Leads.append {s t : List Char} {n : Nat} (h : r.Leads s P placed commas outer)
    (hrest : (r.readAll s).Leads t Q placed n outer) : r.Leads (s ++ t) Q placed n outer := by
  induction s generalizing r with
  | nil => exact hrest
  | cons c s ih =>
      have hnext : (r.step c).Leads s P placed commas outer :=
        ⟨fun t ht => h.shows (c :: t) (List.cons_prefix_cons.mpr ⟨rfl, ht⟩), h.arrives⟩
      exact .cons (h.shows [] List.nil_prefix) (ih hnext hrest)

theorem Leads.mono {s : List Char} (h : r.Leads s P placed commas outer)
    (hPQ : ∀ level, P level → Q level) : r.Leads s Q placed commas outer :=
  ⟨h.shows, h.arrives.mono hPQ⟩

theorem At.leads_of_stays {s : List Char} {kept : Char → Prop}
    (hstay : ∀ {r : Reading} {c : Char}, r.At P placed commas outer → kept c →
      (r.step c).At P placed commas outer)
    (h : r.At P placed commas outer) (hs : ∀ c ∈ s, kept c) :
    r.Leads s P placed commas outer := by
  induction s generalizing r with
  | nil => exact h.leads_nil
  | cons c s ih =>
      have hrest : ∀ d ∈ s, kept d := fun d hd => hs d (List.mem_cons_of_mem c hd)
      exact .cons h.shows (ih (hstay h (hs c List.mem_cons_self)) hrest)

private theorem At.leads_token (h : r.At Level.IsFresh placed commas outer) (token : Token) :
    r.Leads token.chars Level.IsNamed placed commas outer := by
  obtain ⟨chars, hne, hplain⟩ := token
  cases chars with
  | nil => exact absurd rfl hne
  | cons c cs =>
      have hfirst := h.step_fresh_token (hplain c List.mem_cons_self)
      exact .cons h.shows (hfirst.leads_of_stays At.step_named_token fun d hd =>
        hplain d (List.mem_cons_of_mem c hd))

private theorem At.leads_label (h : r.At Level.IsFresh placed commas outer) (label : Label) :
    r.Leads label.chars Level.IsLabelled placed commas outer := by
  have htoken := h.leads_token label.name
  have hblanks := htoken.arrives.leads_of_stays At.step_named_blank label.before.blank
  have hequals := hblanks.arrives.step_named_equals
  exact htoken.append (hblanks.append (.cons hblanks.arrives.shows
    (hequals.leads_of_stays At.step_labelled_blank label.after.blank)))

theorem At.leads_labelChars (h : r.At Level.IsFresh placed commas outer) (label : Option Label) :
    r.Leads (labelChars label) Level.AwaitsValue placed commas outer := by
  cases label with
  | none => exact (h.mono fun _ => .inl).leads_nil
  | some label => exact (h.leads_label label).mono fun _ => Level.IsLabelled.awaitsValue

private theorem At.leads_phrase (h : r.At Level.IsLabelled placed commas outer) (phrase : Phrase) :
    r.Leads phrase.chars Level.IsPhrase placed commas outer := by
  have hfirst := h.step_labelled_first phrase.starts.1 phrase.starts.2
    (phrase.plain phrase.first List.mem_cons_self)
  exact .cons h.shows (hfirst.leads_of_stays At.step_phrase fun c hc =>
    phrase.plain c (List.mem_cons_of_mem _ hc))

private theorem At.leads_quoted (h : r.At Level.AwaitsValue placed commas outer) {value : List Char}
    (hvalue : '\x27' ∉ value) :
    r.Leads ('\x27' :: (value ++ ['\x27'])) Level.IsRest placed commas outer := by
  have hopen := h.step_awaits_quote
  have hplain : ∀ c ∈ value, c ≠ '\x27' := fun c hc heq => hvalue (heq ▸ hc)
  have hinside := hopen.leads_of_stays At.step_quoted hplain
  have hclose := hinside.arrives.step_quoted_quote
  exact .cons h.shows (hinside.append (.cons hinside.arrives.shows hclose.leads_nil))

theorem At.leads_leaf (h : r.At Level.IsFresh placed commas outer) (item : Leaf) :
    r.Leads item.chars Level.IsRest placed commas outer := by
  cases item with
  | word token => exact (h.leads_token token).mono fun _ => Level.IsNamed.isRest
  | phrase label value =>
      have hlabel := h.leads_label label
      have hvalue := hlabel.arrives.leads_phrase value
      exact hlabel.append (hvalue.mono fun _ => Level.IsPhrase.isRest)
  | quoted label value closed =>
      have hlabel := h.leads_labelChars label
      exact hlabel.append (hlabel.arrives.leads_quoted closed)

theorem At.leads_separator (h : r.At Level.IsRest placed commas outer) (before after : Blanks) :
    r.Leads (before.chars ++ ',' :: after.chars) Level.IsFresh placed (commas + 1) outer := by
  have hbefore := h.leads_of_stays At.step_rest_blank before.blank
  have hcomma := hbefore.arrives.step_comma
  exact hbefore.append (.cons hbefore.arrives.shows
    (hcomma.leads_of_stays At.step_fresh_blank after.blank))

end Runs

end Reading

end XamlAssist.Extension
