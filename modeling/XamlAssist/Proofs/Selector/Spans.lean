import Mathlib.Logic.Function.Iterate
import XamlAssist.Proofs.Selector.Acceptance
import XamlAssist.Proofs.Text.Offset

/-!
# Where the components of a selector stand

The spans that a reading notes are pieces of the text, each next to the character that marks it: a
class behind its dot, a value behind its `=`, the two names of a qualified type around their bar. A
statement notes some spans before it may still turn out to be at fault, so every statement is shown
to keep this, with and without a fault.

Main statement: `ofText_components_stand`.
-/

namespace XamlAssist.Selector

open Text

/-- Every component stands in the text, next to the characters that mark it. -/
structure Components.Stand (c : Components) (text : List Char) : Prop where
  namespaceName : ∀ span, c.namespaceName = some span →
    (span.Stands text fun _ after => after.head? = some '|') ∧
      ∃ name, c.typeName = some name ∧ name.start.toNat = span.stop.toNat + 1
  typeName : ∀ span, c.typeName = some span → span.Stands text fun _ _ => True
  styleClass : ∀ span, c.styleClass = some span →
    span.Stands text fun before _ => before.getLast? = some '.'
  pseudoClass : ∀ span, c.pseudoClass = some span →
    span.Stands text fun before _ => before.getLast? = some ':'
  elementName : ∀ span, c.elementName = some span →
    span.Stands text fun before _ => before.getLast? = some '#'
  property : ∀ span, c.property = some span → span.Stands text fun _ _ => True
  attachedNamespace : ∀ span, c.attachedNamespace = some span →
    (span.Stands text fun _ after => after.head? = some '|') ∧
      ∀ type, c.attachedType = some type → type.start.toNat = span.stop.toNat + 1
  attachedType : ∀ span, c.attachedType = some span → span.Stands text fun _ _ => True
  value : ∀ span, c.value = some span →
    span.Stands text fun before _ => before.getLast? = some '='
  function : ∀ span, c.function = some span →
    span.Stands text fun before after => before.getLast? = some ':' ∧ after.head? = some '('
  arguments : ∀ span, c.arguments = some span →
    span.Stands text fun _ after => after.head? = some ')'

/-- What holds of the components besides where no fault was found: a value has its bracket, and the
type of an attached property has its property behind a dot. -/
structure Components.Complete (c : Components) (text : List Char) : Prop where
  value : ∀ span, c.value = some span → span.Stands text fun _ after => after.head? = some ']'
  attachedNamespace : ∀ span, c.attachedNamespace = some span → c.attachedType.isSome = true
  attachedType : ∀ span, c.attachedType = some span →
    (span.Stands text fun _ after => after.head? = some '.') ∧
      ∃ property, c.property = some property ∧ property.start.toNat = span.stop.toNat + 1

private theorem Components.complete_of_none {c : Components} {text : List Char}
    (hvalue : c.value = none)
    (hnamespace : c.attachedNamespace = none) (htype : c.attachedType = none) :
    c.Complete text := by
  constructor <;> simp [hvalue, hnamespace, htype]

namespace Reading

/-! ### Taking pieces off the text -/

/-- The reading with `piece` taken, before `rest`. -/
def taking (r : Reading) (piece rest : List Char) : Reading :=
  { r with rest, pos := r.pos + byteLength piece }

/-- From `r` to `next` the piece with the given span is taken. -/
def Takes (r : Reading) (span : Span) (next : Reading) : Prop :=
  ∃ piece rest, r.rest = piece ++ rest ∧ span = .ofOffsets r.pos (r.pos + byteLength piece) ∧
    next = r.taking piece rest

private theorem bump_of_peek {r : Reading} {c : Char} (h : r.peek = some c) :
    ∃ rest, r.rest = c :: rest ∧ r.bump = r.taking [c] rest := by
  cases hrest : r.rest with
  | nil => simp [peek, hrest] at h
  | cons d rest =>
      obtain rfl : d = c := by simpa [peek, hrest] using h
      exact ⟨rest, rfl, by simp [bump, hrest, taking]⟩

private theorem bump_pos_of_peek {r : Reading} {c : Char} (h : r.peek = some c) :
    r.bump.pos = r.pos + c.utf8Size := by
  obtain ⟨rest, -, hbump⟩ := bump_of_peek h
  rw [hbump]
  rfl

private theorem skipWhile_eq_taking (p : Char → Bool) (r : Reading) :
    ∃ piece rest, r.rest = piece ++ rest ∧ r.skipWhile p = r.taking piece rest :=
  ⟨r.rest.takeWhile p, r.rest.dropWhile p, List.takeWhile_append_dropWhile.symm, rfl⟩

private theorem takes_of_takeRun {p : Char → Bool} {r next : Reading} {span : Span}
    (h : r.takeRun p = some (span, next)) : r.Takes span next := by
  unfold takeRun at h
  split at h
  · obtain ⟨rfl, rfl⟩ := by simpa using h
    exact ⟨_, _, List.takeWhile_append_dropWhile.symm, rfl, rfl⟩
  · simp at h

private theorem takes_of_takeIdentifier [IdentifierTables] {r next : Reading} {span : Span}
    (h : r.takeIdentifier = some (span, next)) : r.Takes span next := by
  unfold takeIdentifier at h
  split at h
  · exact takes_of_takeRun h
  · simp at h

private theorem takeThrough_eq_some {c : Char} {r next : Reading} {span : Span} {inner : List Char}
    (h : r.takeThrough c = some (span, inner, next)) :
    ∃ rest, r.rest = inner ++ c :: rest ∧ span = .ofOffsets r.pos (r.pos + byteLength inner) ∧
      next = r.taking (inner ++ [c]) rest := by
  obtain ⟨hinner, hrest, -⟩ := starts_of_takeThrough h
  have hsplit : r.rest = inner ++ c :: next.rest := by
    rw [hinner, ← hrest, List.takeWhile_append_dropWhile]
  unfold takeThrough at h
  split at h
  · simp at h
  · obtain ⟨rfl, rfl, rfl⟩ := by simpa using h
    exact ⟨_, hsplit, rfl, by simp [taking, Nat.add_assoc]⟩

private theorem takeText_eq_some {piece : List Char} {r next : Reading}
    (h : r.takeText piece = some next) :
    ∃ rest, r.rest = piece ++ rest ∧ next = r.taking piece rest := by
  unfold takeText at h
  split at h
  · next hprefix =>
      obtain ⟨rest, hrest⟩ := List.isPrefixOf_iff_prefix.mp hprefix
      obtain rfl := Option.some.inj h
      exact ⟨rest, hrest.symm, by rw [← hrest, List.drop_left]; rfl⟩
  · simp at h

@[simp] theorem bump_components (r : Reading) : r.bump.components = r.components := by
  unfold bump
  split <;> rfl

private theorem note_bump (r : Reading) (change : Components → Components) :
    (r.note change).bump = r.bump.note change := by
  cases hrest : r.rest <;> simp [bump, note, hrest]

@[simp] theorem skipBlanks_components (r : Reading) : r.skipBlanks.components = r.components := rfl

@[simp] theorem startSegment_components (r : Reading) :
    r.startSegment.components = r.components := rfl

@[simp] theorem note_components (r : Reading) (change : Components → Components) :
    (r.note change).components = change r.components := rfl

theorem Takes.components {r next : Reading} {span : Span} (h : r.Takes span next) :
    next.components = r.components := by
  obtain ⟨piece, rest, -, -, rfl⟩ := h
  rfl

/-! ### Readings in a text -/

/-- The reading has read the beginning of `text`, and what it holds are places and pieces of it. -/
structure Placed (r : Reading) (text : List Char) : Prop where
  read : ∃ before, text = before ++ r.rest ∧ byteLength before = r.pos
  segmentStart : isPlace text r.segmentStart = true
  parsedTo : isPlace text r.parsedTo = true
  stand : r.components.Stand text

/-- The last character read is `c`. -/
def Behind (r : Reading) (text : List Char) (c : Char) : Prop :=
  ∀ before, text = before ++ r.rest → before.getLast? = some c

section Placed

variable {r next : Reading} {text : List Char} {span : Span} {c : Char}

private theorem Placed.taking (h : r.Placed text) {piece rest : List Char}
    (hrest : r.rest = piece ++ rest) : (r.taking piece rest).Placed text := by
  obtain ⟨before, htext, hpos⟩ := h.read
  refine { h with read := ⟨before ++ piece, ?_, ?_⟩ }
  · rw [htext, hrest, List.append_assoc]
    rfl
  · rw [byteLength_append, hpos]
    rfl

theorem Placed.bump (h : r.Placed text) : r.bump.Placed text := by
  cases hpeek : r.peek with
  | none =>
      have hrest : r.rest = [] := List.head?_eq_none_iff.mp hpeek
      have hsame : r.bump = r := by simp [Reading.bump, hrest]
      rwa [hsame]
  | some c =>
      obtain ⟨rest, hrest, hbump⟩ := bump_of_peek hpeek
      rw [hbump]
      exact h.taking hrest

private theorem Placed.behind_bump (h : r.Placed text) (hpeek : r.peek = some c) :
    r.bump.Behind text c := by
  obtain ⟨rest, hrest, hbump⟩ := bump_of_peek hpeek
  obtain ⟨before, htext, -⟩ := h.read
  intro front hfront
  rw [hbump, htext, hrest, ← List.singleton_append, ← List.append_assoc] at hfront
  rw [← List.append_cancel_right hfront]
  simp

theorem Placed.skipBlanks (h : r.Placed text) : r.skipBlanks.Placed text := by
  obtain ⟨piece, rest, hrest, hskip⟩ := skipWhile_eq_taking isBlank r
  rw [Reading.skipBlanks, hskip]
  exact h.taking hrest

theorem Placed.isPlace_pos (h : r.Placed text) : isPlace text r.pos = true := by
  obtain ⟨before, htext, hpos⟩ := h.read
  exact isPlace_iff.mpr ⟨before, r.rest, htext, hpos⟩

theorem Placed.startSegment (h : r.Placed text) : r.startSegment.Placed text :=
  { h with segmentStart := h.isPlace_pos }

theorem Placed.expectSegment (h : r.Placed text) : r.expectSegment.Placed text := { h with }

theorem Placed.openFunction (h : r.Placed text) (function : Function) :
    (r.openFunction function).Placed text := { h with }

theorem Placed.closeFunction (h : r.Placed text) : r.closeFunction.Placed text := { h with }

theorem Placed.note (h : r.Placed text) {change : Components → Components}
    (hstand : (change r.components).Stand text) : (r.note change).Placed text :=
  { h with stand := hstand }

theorem Takes.placed (ht : r.Takes span next) (h : r.Placed text) : next.Placed text := by
  obtain ⟨piece, rest, hrest, -, rfl⟩ := ht
  exact h.taking hrest

theorem Placed.bounds (h : r.Placed text) (hsize : byteLength text < 4294967296)
    {piece rest : List Char} (hrest : r.rest = piece ++ rest) :
    (Span.ofOffsets r.pos (r.pos + byteLength piece)).start.toNat = r.pos ∧
      (Span.ofOffsets r.pos (r.pos + byteLength piece)).stop.toNat = r.pos + byteLength piece := by
  obtain ⟨before, htext, hpos⟩ := h.read
  have hlength := congrArg byteLength htext
  simp only [hrest, byteLength_append] at hlength
  exact Span.ofOffsets_toNat _ _ (by omega) (by omega)

/-- A piece at the beginning of what is left stands in the text. -/
theorem Placed.stands (h : r.Placed text) (hsize : byteLength text < 4294967296)
    {near : List Char → List Char → Prop} {piece rest : List Char} (hrest : r.rest = piece ++ rest)
    (hnear : ∀ before, text = before ++ r.rest → near before rest) :
    (Span.ofOffsets r.pos (r.pos + byteLength piece)).Stands text near := by
  obtain ⟨before, htext, hpos⟩ := h.read
  have hsplit : text = before ++ (piece ++ rest) := by rw [htext, hrest]
  obtain ⟨hstart, hstop⟩ := h.bounds hsize hrest
  refine ⟨before, piece, rest, hsplit, ?_, ?_, ?_, hnear before htext⟩
  · rw [hstart, hpos]
  · rw [hstop, hpos]
  · rw [← hpos, hsplit]
    exact Span.read_ofOffsets before piece rest (hsplit ▸ hsize)

theorem Takes.bounds (ht : r.Takes span next) (h : r.Placed text)
    (hsize : byteLength text < 4294967296) :
    span.start.toNat = r.pos ∧ span.stop.toNat = next.pos := by
  obtain ⟨piece, rest, hrest, rfl, rfl⟩ := ht
  exact h.bounds hsize hrest

theorem Takes.stands (ht : r.Takes span next) (h : r.Placed text)
    (hsize : byteLength text < 4294967296) {near : List Char → List Char → Prop}
    (hnear : ∀ before, text = before ++ r.rest → near before next.rest) :
    span.Stands text near := by
  obtain ⟨piece, rest, hrest, rfl, rfl⟩ := ht
  exact h.stands hsize hrest hnear

theorem Takes.qualified {q last : Reading} {name : Span} (ht : r.Takes span next)
    (hpeek : next.peek = some '|') (hname : q.Takes name last) (hpos : q.pos = next.bump.pos)
    (h : r.Placed text) (hq : q.Placed text) (hsize : byteLength text < 4294967296) :
    (span.Stands text fun _ after => after.head? = some '|') ∧
      name.start.toNat = span.stop.toNat + 1 := by
  refine ⟨ht.stands h hsize fun _ _ => hpeek, ?_⟩
  rw [(hname.bounds hq hsize).1, (ht.bounds h hsize).2, hpos, bump_pos_of_peek hpeek]
  rfl

end Placed

/-! ### Statements -/

/-- What holds where a statement begins. -/
def Ready (text : List Char) (r : Reading) : Statement → Prop
  | .start => r.components.Complete text ∧ (r.expectsSegment = true ∨ r.openFunctions = [])
  | .pseudo => r.components.Complete text ∧ r.Behind text ':'
  | .styleClass => r.components.Complete text ∧ r.Behind text '.'
  | .elementName => r.components.Complete text ∧ r.Behind text '#'
  | .value => r.components.Complete text ∧ r.Behind text '='
  | .attachedProperty true =>
      r.components.value = none ∧ r.components.attachedNamespace = none ∧
        r.components.attachedType = none
  | .attachedProperty false =>
      r.components.value = none ∧ ∃ type, r.components.attachedType = some type ∧
        (type.Stands text fun _ after => after.head? = some '.') ∧ r.pos = type.stop.toNat + 1
  | .done => r.components.Complete text ∧ r.rest = [] ∧ r.openFunctions = []
  | _ => r.components.Complete text

/-- The step keeps what a reading holds in its place, and the next statement can begin. -/
structure Keeps (text : List Char) (s : Step) : Prop where
  placed : s.1.Placed text
  ready : ∀ following, s.2 = some following → s.1.Ready text following

section Statements

variable {r : Reading} {text : List Char}

private theorem keeps_fault (h : r.Placed text) : Keeps text r.fault := ⟨h, by simp [fault]⟩

private theorem keeps_goOn (h : r.Placed text) {statement : Statement}
    (hready : r.Ready text statement) : Keeps text (r.goOn statement) :=
  ⟨h, by simpa [goOn] using hready⟩

private theorem Placed.keeps_mark (h : r.Placed text) (hcomplete : r.components.Complete text)
    {c : Char} (hpeek : r.peek = some c) {statement : Statement}
    (hready : ∀ q : Reading, q.components.Complete text → q.Behind text c →
      q.Ready text statement) : Keeps text (r.bump.goOn statement) := by
  apply keeps_goOn h.bump
  apply hready
  · rwa [bump_components]
  · exact h.behind_bump hpeek

private theorem keeps_readStart [IdentifierTables] (h : r.Placed text)
    (hready : r.Ready text .start) :
    Keeps text r.readStart := by
  obtain ⟨hcomplete, hstart⟩ := hready
  have hplaced := h.skipBlanks.startSegment
  unfold readStart
  dsimp only
  split
  · next hpeek =>
      split
      · exact keeps_fault h.skipBlanks
      · next hexpects =>
          have hrest := List.head?_eq_none_iff.mp hpeek
          exact keeps_goOn h.skipBlanks ⟨hcomplete, hrest, hstart.resolve_left hexpects⟩
  next c hpeek =>
  split
  · next hc => exact hplaced.keeps_mark hcomplete (hc ▸ hpeek) fun _ => And.intro
  split
  · next hc => exact hplaced.keeps_mark hcomplete (hc ▸ hpeek) fun _ => And.intro
  split
  · next hc => exact hplaced.keeps_mark hcomplete (hc ▸ hpeek) fun _ => And.intro
  split
  · exact keeps_goOn hplaced.bump (by simpa [Ready])
  split
  · exact keeps_goOn hplaced hcomplete
  · exact keeps_fault hplaced

private theorem keeps_readMiddle (h : r.Placed text) (hready : r.Ready text .middle) :
    Keeps text r.readMiddle := by
  have hcomplete : r.components.Complete text := hready
  have hplaced := h.startSegment
  unfold readMiddle
  split
  · next hpeek =>
      split
      · next hopen =>
          exact keeps_goOn h ⟨hcomplete, List.head?_eq_none_iff.mp hpeek, by simpa using hopen⟩
      · exact keeps_fault h
  next c hpeek =>
  split
  · next hc => exact hplaced.keeps_mark hcomplete (hc ▸ hpeek) fun _ => And.intro
  split
  · next hc => exact hplaced.keeps_mark hcomplete (hc ▸ hpeek) fun _ => And.intro
  split
  · next hc => exact hplaced.keeps_mark hcomplete (hc ▸ hpeek) fun _ => And.intro
  split
  · exact keeps_goOn hplaced.bump (by simpa [Ready])
  split
  · exact keeps_goOn h hcomplete
  split
  · exact keeps_goOn h hcomplete
  split
  · exact keeps_goOn h.bump.expectSegment ⟨by simpa [expectSegment], .inl rfl⟩
  split
  · exact keeps_goOn h.bump.closeFunction (by simpa [Ready, closeFunction])
  · exact keeps_fault h

private theorem keeps_readAfterName (h : r.Placed text) (hready : r.Ready text .afterName) :
    Keeps text r.readAfterName := by
  unfold readAfterName
  split
  · exact keeps_goOn h.startSegment.bump (by simpa [Ready] using hready)
  · exact keeps_goOn h hready

private theorem keeps_readFunction (h : r.Placed text) (function : Function)
    (hready : r.Ready text (.function function)) : Keeps text (r.readFunction function) := by
  cases function with
  | is => exact keeps_goOn (h.openFunction .is) hready
  | not => exact keeps_goOn (h.openFunction .not).expectSegment ⟨hready, .inl rfl⟩
  | nthChild => exact keeps_goOn h hready
  | nthLastChild => exact keeps_goOn h hready

private theorem keeps_readCombinator (h : r.Placed text) (hready : r.Ready text .combinator) :
    Keeps text r.readCombinator := by
  have hcomplete : r.components.Complete text := hready
  have hplaced := h.skipBlanks
  unfold readCombinator
  dsimp only
  split
  · exact keeps_goOn hplaced.bump.skipBlanks.expectSegment ⟨by simpa [expectSegment], .inl rfl⟩
  · exact keeps_goOn hplaced hcomplete
  · exact keeps_goOn hplaced hcomplete
  · exact keeps_goOn hplaced hcomplete
  · exact keeps_goOn hplaced hcomplete
  · exact keeps_goOn hplaced.expectSegment ⟨hcomplete, .inl rfl⟩

private theorem keeps_readTemplate (h : r.Placed text) (hready : r.Ready text .template) :
    Keeps text r.readTemplate := by
  unfold readTemplate
  dsimp only
  split
  · exact keeps_fault h.startSegment
  · next next htake =>
      obtain ⟨rest, hrest, rfl⟩ := takeText_eq_some htake
      exact keeps_goOn (h.startSegment.taking hrest).expectSegment ⟨hready, .inl rfl⟩

private theorem keeps_readEquals (h : r.Placed text) (hcomplete : r.components.Complete text) :
    Keeps text r.readEquals := by
  unfold readEquals
  dsimp only
  split
  · next hpeek => exact h.skipBlanks.keeps_mark hcomplete hpeek fun _ => And.intro
  · exact keeps_fault h.skipBlanks

section Components

variable (hsize : byteLength text < 4294967296)

include hsize

private theorem keeps_readArguments (h : r.Placed text) (hready : r.Ready text .arguments) :
    Keeps text r.readArguments := by
  unfold readArguments
  split
  · exact keeps_fault h
  next span inner next htake =>
  split
  · obtain ⟨rest, hrest, rfl, rfl⟩ := takeThrough_eq_some htake
    have hnext : (r.taking (inner ++ [')']) rest).Placed text := h.taking (by simp [hrest])
    have hstands : (Span.ofOffsets r.pos (r.pos + byteLength inner)).Stands text
        fun _ after => after.head? = some ')' := h.stands hsize hrest fun _ _ => rfl
    exact keeps_goOn (hnext.note { hnext.stand with arguments := by simpa using hstands })
      { (show r.components.Complete text from hready) with }
  · exact keeps_fault h

private theorem keeps_readValue (h : r.Placed text) (hready : r.Ready text .value) :
    Keeps text r.readValue := by
  unfold readValue
  split
  · have hstands : (Span.ofOffsets r.pos (r.pos + byteLength r.rest)).Stands text
        fun before _ => before.getLast? = some '=' :=
      h.stands hsize (List.append_nil _).symm hready.2
    exact keeps_fault (h.note { h.stand with value := by simpa using hstands })
  next span inner next htake =>
  obtain ⟨rest, hrest, rfl, rfl⟩ := takeThrough_eq_some htake
  have hnext : (r.taking (inner ++ [']']) rest).Placed text := h.taking (by simp [hrest])
  have hstands : (Span.ofOffsets r.pos (r.pos + byteLength inner)).Stands text
      fun before after => before.getLast? = some '=' ∧ after.head? = some ']' :=
    h.stands hsize hrest fun before hbefore => ⟨hready.2 before hbefore, rfl⟩
  refine keeps_goOn (hnext.note { hnext.stand with value := ?_ }) { hready.1 with value := ?_ }
  · simpa using hstands.mono fun _ _ => And.left
  · simpa [note] using hstands.mono fun _ _ => And.right

private theorem ready_attachedProperty {next : Reading} {type : Span} (ht : r.Takes type next)
    (h : r.Placed text) (hpeek : next.peek = some '.') {change : Components → Components}
    (hvalue : (change next.components).value = none)
    (htype : (change next.components).attachedType = some type) :
    (next.bump.note change).Ready text (.attachedProperty false) := by
  rw [← bump_components] at hvalue htype
  refine ⟨hvalue, type, htype, ht.stands h hsize fun _ _ => hpeek, ?_⟩
  rw [(ht.bounds h hsize).2]
  exact bump_pos_of_peek hpeek

variable [IdentifierTables]

private theorem keeps_readStyleClass (h : r.Placed text) (hready : r.Ready text .styleClass) :
    Keeps text r.readStyleClass := by
  unfold readStyleClass
  split
  · exact keeps_fault h
  next span next htake =>
  have ht := takes_of_takeRun htake
  have hnext := ht.placed h
  have hstands : span.Stands text fun before _ => before.getLast? = some '.' :=
    ht.stands h hsize hready.2
  exact keeps_goOn (hnext.note { hnext.stand with styleClass := by simpa using hstands })
    { ht.components ▸ hready.1 with }

private theorem keeps_readElementName (h : r.Placed text) (hready : r.Ready text .elementName) :
    Keeps text r.readElementName := by
  unfold readElementName
  split
  · exact keeps_fault h
  next span next htake =>
  have ht := takes_of_takeIdentifier htake
  have hnext := ht.placed h
  have hstands : span.Stands text fun before _ => before.getLast? = some '#' :=
    ht.stands h hsize hready.2
  exact keeps_goOn (hnext.note { hnext.stand with elementName := by simpa using hstands })
    { ht.components ▸ hready.1 with }

private theorem keeps_readPseudo (h : r.Placed text) (hready : r.Ready text .pseudo) :
    Keeps text r.readPseudo := by
  unfold readPseudo
  split
  · exact keeps_fault h
  next span next htake =>
  have ht := takes_of_takeRun htake
  have hnext := ht.placed h
  have hcomplete : next.components.Complete text := ht.components ▸ hready.1
  split
  · next hpeek =>
      split
      · exact keeps_fault hnext
      · have hstands : span.Stands text fun before after =>
            before.getLast? = some ':' ∧ after.head? = some '(' :=
          ht.stands h hsize fun before hbefore => ⟨hready.2 before hbefore, hpeek⟩
        have hnoted : (next.note
            ({ · with function := some span, arguments := none })).Placed text :=
          hnext.note { hnext.stand with function := by simpa using hstands, arguments := by simp }
        refine keeps_goOn hnoted.bump ?_
        show Components.Complete _ text
        rw [bump_components]
        exact { hcomplete with }
  · have hstands : span.Stands text fun before _ => before.getLast? = some ':' :=
      ht.stands h hsize hready.2
    exact keeps_goOn (hnext.note { hnext.stand with pseudoClass := by simpa using hstands })
      { hcomplete with }

private theorem keeps_readTypeName (h : r.Placed text) (hready : r.Ready text .typeName) :
    Keeps text r.readTypeName := by
  have hplaced := h.startSegment
  unfold readTypeName
  dsimp only
  split
  · exact keeps_fault hplaced
  next first next htake =>
  have ht := takes_of_takeIdentifier htake
  have hnext := ht.placed hplaced
  have hcomplete : next.components.Complete text := ht.components ▸ hready
  split
  · next hpeek =>
      split
      · exact keeps_fault hnext
      next second last hsecond =>
      have ht' := takes_of_takeIdentifier hsecond
      have hlast := ht'.placed hnext.bump
      have hsecond : second.Stands text fun _ _ => True :=
        ht'.stands hnext.bump hsize fun _ _ => trivial
      have hcomplete : last.components.Complete text := by
        rwa [ht'.components, bump_components]
      exact keeps_goOn
        (hlast.note { hlast.stand with
          namespaceName := by simpa using ht.qualified hpeek ht' rfl hplaced hnext.bump hsize
          typeName := by simpa using hsecond })
        { hcomplete with }
  · have hstands : first.Stands text fun _ _ => True :=
      ht.stands hplaced hsize fun _ _ => trivial
    exact keeps_goOn
      (hnext.note { hnext.stand with namespaceName := by simp, typeName := by simpa using hstands })
      { hcomplete with }

private theorem keeps_readPredicate (h : r.Placed text) : Keeps text r.readPredicate := by
  have hcleared : (r.note ({ · with
      attachedNamespace := none, attachedType := none, value := none })).Placed text :=
    h.note { h.stand with attachedNamespace := by simp, attachedType := by simp, value := by simp }
  have hplaced := hcleared.skipBlanks
  unfold readPredicate
  dsimp only
  split
  · exact keeps_goOn hplaced.bump (by simp [Ready])
  split
  · exact keeps_fault hplaced
  next first next htake =>
  have ht := takes_of_takeIdentifier htake
  have hnext := ht.placed hplaced
  have hvalue : next.components.value = none := by rw [ht.components]; rfl
  have hnamespace : next.components.attachedNamespace = none := by rw [ht.components]; rfl
  have htype : next.components.attachedType = none := by rw [ht.components]; rfl
  have hfirst : first.Stands text fun _ _ => True := ht.stands hplaced hsize fun _ _ => trivial
  split
  · next hpeek =>
      split
      · exact keeps_fault hnext
      next second last hsecond =>
      have ht' := takes_of_takeIdentifier hsecond
      have hlast := ht'.placed hnext.bump
      have hstands : second.Stands text fun _ _ => True :=
        ht'.stands hnext.bump hsize fun _ _ => trivial
      split
      · next hdot =>
          refine keeps_goOn (hlast.bump.note { hlast.bump.stand with
            attachedNamespace := by simpa using ht.qualified hpeek ht' rfl hplaced hnext.bump hsize
            attachedType := by simpa using hstands })
            (ready_attachedProperty hsize ht' hnext.bump hdot ?_ rfl)
          simpa [ht'.components] using hvalue
      · exact keeps_fault hlast
  split
  · next hdot =>
      exact keeps_goOn (hnext.bump.note { hnext.bump.stand with
        attachedNamespace := by simp [hnamespace]
        attachedType := by simpa using hfirst })
        (ready_attachedProperty hsize ht hplaced hdot hvalue rfl)
  · exact keeps_readEquals (hnext.note { hnext.stand with property := by simpa using hfirst })
      (Components.complete_of_none hvalue hnamespace htype)

private theorem readAttachedType_ready (h : r.Placed text)
    (hready : r.Ready text (.attachedProperty true)) :
    r.readAttachedType.1.Placed text ∧
      (r.readAttachedType.2 = true →
        r.readAttachedType.1.Ready text (.attachedProperty false)) := by
  obtain ⟨hvalue, hnamespace, htype⟩ := hready
  unfold readAttachedType
  split
  · exact ⟨h, by simp⟩
  next first next htake =>
  have ht := takes_of_takeIdentifier htake
  have hnext := ht.placed h
  rw [← ht.components] at hvalue hnamespace htype
  by_cases hpeek : next.peek = some '|'
  · have hfirst : first.Stands text fun _ after => after.head? = some '|' :=
      ht.stands h hsize fun _ _ => hpeek
    have hbar : (next.bump.note ({ · with attachedNamespace := some first })).Placed text :=
      hnext.bump.note { hnext.bump.stand with
        attachedNamespace := by simpa [htype] using hfirst }
    simp only [hpeek, ↓reduceIte]
    cases hsecond :
        (next.bump.note ({ · with attachedNamespace := some first })).takeIdentifier with
    | none => exact ⟨hbar, by simp⟩
    | some taken =>
        obtain ⟨second, last⟩ := taken
        have ht' := takes_of_takeIdentifier hsecond
        have hlast := ht'.placed hbar
        have hstands : second.Stands text fun _ _ => True :=
          ht'.stands hbar hsize fun _ _ => trivial
        have hadjacent := ht.qualified hpeek ht' rfl h hbar hsize
        have hnoted : (last.note ({ · with attachedType := some second })).Placed text :=
          hlast.note { hlast.stand with
            attachedNamespace := by simpa [ht'.components] using hadjacent
            attachedType := by simpa using hstands }
        dsimp only
        split
        · next hdot =>
            refine ⟨hnoted.bump, fun _ => ?_⟩
            rw [note_bump]
            refine ready_attachedProperty hsize ht' hbar (of_decide_eq_true hdot) ?_ rfl
            simpa [ht'.components] using hvalue
        · exact ⟨hnoted, by simp⟩
  · have hfirst : first.Stands text fun _ _ => True := ht.stands h hsize fun _ _ => trivial
    have hnoted : (next.note ({ · with attachedType := some first })).Placed text :=
      hnext.note { hnext.stand with
        attachedNamespace := by simp [hnamespace]
        attachedType := by simpa using hfirst }
    simp only [hpeek, ↓reduceIte]
    split
    · next hdot =>
        refine ⟨hnoted.bump, fun _ => ?_⟩
        rw [note_bump]
        exact ready_attachedProperty hsize ht h (of_decide_eq_true hdot) hvalue rfl
    · exact ⟨hnoted, by simp⟩

private theorem keeps_readAttachedProperty (h : r.Placed text) (inParentheses : Bool)
    (hready : r.Ready text (.attachedProperty inParentheses)) :
    Keeps text (r.readAttachedProperty inParentheses) := by
  have htyped : (if inParentheses then r.readAttachedType else (r, true)).1.Placed text ∧
      ((if inParentheses then r.readAttachedType else (r, true)).2 = true →
        (if inParentheses then r.readAttachedType else (r, true)).1.Ready text
          (.attachedProperty false)) := by
    cases inParentheses with
    | true => exact readAttachedType_ready hsize h hready
    | false => exact ⟨h, fun _ => hready⟩
  unfold readAttachedProperty
  generalize (if inParentheses then r.readAttachedType else (r, true)) = typed at htyped
  obtain ⟨q, found⟩ := typed
  dsimp only at htyped ⊢
  split
  · exact keeps_fault htyped.1
  next hfound =>
  obtain ⟨hvalue, type, htype, hdot, hpos⟩ := htyped.2 (by simpa using hfound)
  split
  · exact keeps_fault htyped.1
  next span next htake =>
  have ht := takes_of_takeIdentifier htake
  have hnext := ht.placed htyped.1
  have hstands : span.Stands text fun _ _ => True := ht.stands htyped.1 hsize fun _ _ => trivial
  have hnoted : (next.note ({ · with property := some span })).Placed text :=
    hnext.note { hnext.stand with property := by simpa using hstands }
  have hcomplete : (next.note ({ · with property := some span })).components.Complete text := by
    rw [← ht.components] at hvalue htype
    constructor
    · simp [hvalue]
    · simp [htype]
    · have hstart := (ht.bounds htyped.1 hsize).1
      simpa [htype, hstart, hpos] using hdot
  split
  · exact keeps_readEquals hnoted hcomplete
  split
  · exact keeps_readEquals hnoted.bump (by rwa [bump_components])
  · exact keeps_fault hnoted

end Components

/-- Every statement keeps what the reading holds in its place. -/
theorem keeps_step [IdentifierTables] (hsize : byteLength text < 4294967296)
    (h : r.Placed text) (statement : Statement) (hready : r.Ready text statement) :
    Keeps text (r.step statement) := by
  cases statement with
  | start => exact keeps_readStart h hready
  | middle => exact keeps_readMiddle h hready
  | pseudo => exact keeps_readPseudo hsize h hready
  | styleClass => exact keeps_readStyleClass hsize h hready
  | elementName => exact keeps_readElementName hsize h hready
  | afterName => exact keeps_readAfterName h hready
  | combinator => exact keeps_readCombinator h hready
  | typeName => exact keeps_readTypeName hsize h hready
  | predicate => exact keeps_readPredicate hsize h
  | attachedProperty inParentheses => exact keeps_readAttachedProperty hsize h inParentheses hready
  | template => exact keeps_readTemplate h hready
  | value => exact keeps_readValue hsize h hready
  | function function => exact keeps_readFunction h function hready
  | arguments => exact keeps_readArguments hsize h hready
  | done => exact keeps_fault h

end Statements

/-! ### Runs -/

/-- What holds at the end of a run. -/
structure Ends (r : Reading) (text : List Char) : Prop where
  placed : r.Placed text
  faultless : r.failed = false →
    r.parsedTo = byteLength text ∧ r.openFunctions = [] ∧ r.components.Complete text

private theorem placed_start (text : List Char) : ({ rest := text } : Reading).Placed text where
  read := ⟨[], rfl, rfl⟩
  segmentStart := isPlace_iff.mpr ⟨[], text, rfl, rfl⟩
  parsedTo := isPlace_iff.mpr ⟨[], text, rfl, rfl⟩
  stand := by constructor <;> simp

section Runs

variable [IdentifierTables]

/-- One round of reading: a statement without fault gives way to the next, a fault ends the
selector, and behind the end nothing changes. -/
def round (s : Reading × Statement) : Reading × Statement :=
  if s.2 = .done then s
  else
    match s.1.step s.2 with
    | (next, none) => ({ next with failed := true }, .done)
    | (next, some following) => ({ next with parsedTo := next.pos }, following)

/-- After some rounds the end is reached, and there the reading is that of the whole run. -/
theorem exists_round_eq_run (r : Reading) (statement : Statement) :
    ∃ n, round^[n] (r, statement) = (r.run statement, .done) := by
  induction r, statement using run.induct with
  | case1 r => exact ⟨0, by rw [run, if_pos rfl]; rfl⟩
  | case2 r statement hne next hstep =>
      refine ⟨1, ?_⟩
      rw [run_of_fault hne hstep, Function.iterate_one, round, if_neg hne, hstep]
  | case3 r statement hne next following hstep ih =>
      obtain ⟨n, hn⟩ := ih
      refine ⟨n + 1, ?_⟩
      rw [run_of_goes hne hstep, ← hn, Function.iterate_succ_apply, round, if_neg hne, hstep]

private theorem ends_run {text : List Char} (hsize : byteLength text < 4294967296) (r : Reading)
    (statement : Statement) (h : r.Placed text) (hready : r.Ready text statement)
    (hparsed : statement = .done → r.parsedTo = r.pos) : (r.run statement).Ends text := by
  induction r, statement using run.induct with
  | case1 r =>
      rw [run, if_pos rfl]
      obtain ⟨hcomplete, hrest, hopen⟩ := hready
      obtain ⟨before, htext, hpos⟩ := h.read
      refine ⟨h, fun _ => ⟨?_, hopen, hcomplete⟩⟩
      rw [hparsed rfl, ← hpos, htext, hrest, List.append_nil]
  | case2 r statement hne next hstep =>
      have hkeeps := keeps_step hsize h statement hready
      rw [hstep] at hkeeps
      rw [run_of_fault hne hstep]
      exact ⟨{ hkeeps.placed with }, by simp⟩
  | case3 r statement hne next following hstep ih =>
      have hkeeps := keeps_step hsize h statement hready
      rw [hstep] at hkeeps
      rw [run_of_goes hne hstep]
      have hnext : ({ next with parsedTo := next.pos } : Reading).Placed text :=
        { hkeeps.placed with parsedTo := hkeeps.placed.isPlace_pos }
      exact ih hnext (hkeeps.ready following rfl) fun _ => rfl

/-- Reading a text comes to its end. Without fault everything is read and no parenthesis is left
open; with a fault the place where it was last without one is known. In both cases every component
is a piece of the text and stands next to the characters that mark it. Without fault a value has its
bracket too, and an attached type the dot and the property behind it. -/
theorem ofText_components_stand (text : List Char) (hsize : byteLength text < 4294967296) :
    let r := ofText text
    (∃ n, round^[n] ({ rest := text }, .start) = (r, .done)) ∧
      (r.failed = false ∧ r.parsedTo = byteLength text ∧ r.openFunctions = [] ∨
        r.failed = true ∧ isPlace text r.parsedTo = true ∧ r.parsedTo ≤ byteLength text) ∧
      isPlace text r.segmentStart = true ∧ r.segmentStart ≤ byteLength text ∧
      r.components.Stand text ∧ (r.failed = false → r.components.Complete text) := by
  intro r
  have hready : ({ rest := text } : Reading).Ready text .start :=
    ⟨Components.complete_of_none rfl rfl rfl, .inr rfl⟩
  have hends : r.Ends text := ends_run hsize _ _ (placed_start text) hready (by simp)
  have hsegment := hends.placed.segmentStart
  refine ⟨exists_round_eq_run _ _, ?_, hsegment, le_of_isPlace hsegment, hends.placed.stand,
    fun h => (hends.faultless h).2.2⟩
  cases hfailed : r.failed with
  | false =>
      obtain ⟨hparsed, hopen, -⟩ := hends.faultless hfailed
      exact .inl ⟨rfl, hparsed, hopen⟩
  | true =>
      have hparsed := hends.placed.parsedTo
      exact .inr ⟨rfl, hparsed, le_of_isPlace hparsed⟩

end Runs

/-- The selector `.a` with its class read. -/
private def classRead (parsedTo : Nat) : Reading :=
  { rest := [], pos := 2, parsedTo, components := { styleClass := some ⟨1, 2⟩ } }

theorem ofText_components_stand_class :
    (ofText ['.', 'a']).components.styleClass = some ⟨1, 2⟩ ∧
      (ofText ['.', 'a']).components.Stand ['.', 'a'] := by
  have hstart : ({ rest := ['.', 'a'] } : Reading).step .start =
      ({ rest := ['a'], pos := 1 }, some .styleClass) := by decide +kernel
  have hclass : ({ rest := ['a'], pos := 1, parsedTo := 1 } : Reading).step .styleClass =
      (classRead 1, some .middle) := by decide +kernel
  have hmiddle : (classRead 2).step .middle = (classRead 2, some .done) := by decide +kernel
  have hrun : ofText ['.', 'a'] = classRead 2 := by
    rw [ofText, run_of_goes (by decide) hstart, run_of_goes (by decide) hclass]
    exact (run_of_goes (by decide) hmiddle).trans (by rw [run, if_pos rfl]; rfl)
  obtain ⟨-, -, -, -, hstand, -⟩ := ofText_components_stand ['.', 'a'] (by decide)
  exact ⟨by rw [hrun]; rfl, hstand⟩

end Reading

end XamlAssist.Selector
