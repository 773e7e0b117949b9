import XamlAssist.Text.Blank
import XamlAssist.Text.Identifier
import XamlAssist.Text.Offset

/-!
# What is read of a style selector

A selector such as `Button:pointerover.warning[IsEnabled=True] > ContentPresenter` is read from the
left. A `Reading` holds the text that is left and, for each kind of component, the span of the one
read last, which is the one under a caret at the end of the text.
-/

namespace XamlAssist.Selector

open Text

/-- The functions of a selector. -/
inductive Function
  | is
  | not
  | nthChild
  | nthLastChild
  deriving DecidableEq, Repr

/-- The function with the given name. -/
def Function.ofName? (name : List Char) : Option Function :=
  if name = ['i', 's'] then some .is
  else if name = ['n', 'o', 't'] then some .not
  else if name = ['n', 't', 'h', '-', 'c', 'h', 'i', 'l', 'd'] then some .nthChild
  else if name = ['n', 't', 'h', '-', 'l', 'a', 's', 't', '-', 'c', 'h', 'i', 'l', 'd'] then
    some .nthLastChild
  else none

/-- The components of a selector, each by its last occurrence. -/
structure Components where
  namespaceName : Option Span := none
  typeName : Option Span := none
  styleClass : Option Span := none
  pseudoClass : Option Span := none
  elementName : Option Span := none
  property : Option Span := none
  attachedNamespace : Option Span := none
  attachedType : Option Span := none
  value : Option Span := none
  function : Option Span := none
  arguments : Option Span := none
  deriving DecidableEq, Repr

/-- The state of reading a selector. -/
structure Reading where
  /-- The text that is left. -/
  rest : List Char
  /-- The number of bytes read. -/
  pos : Nat := 0
  /-- Whether the text is no selector. -/
  failed : Bool := false
  /-- Whether a segment has to follow: behind a comma, a combinator or `:not(`. -/
  expectsSegment : Bool := false
  /-- The offset where the last segment starts. -/
  segmentStart : Nat := 0
  /-- The offset up to which the text was read without fault. -/
  parsedTo : Nat := 0
  /-- The functions whose parenthesis is open, the innermost first. -/
  openFunctions : List Function := []
  components : Components := {}
  deriving DecidableEq, Repr

namespace Reading

/-- The next character. -/
def peek (r : Reading) : Option Char := r.rest.head?

/-- Takes the next character. -/
def bump (r : Reading) : Reading :=
  match r.rest with
  | [] => r
  | c :: rest => { r with rest, pos := r.pos + c.utf8Size }

/-- Takes the characters up to the first that is not in the class `p`. -/
def skipWhile (p : Char → Bool) (r : Reading) : Reading :=
  { r with
    rest := r.rest.dropWhile p
    pos := r.pos + byteLength (r.rest.takeWhile p) }

/-- Takes blanks. -/
def skipBlanks (r : Reading) : Reading := r.skipWhile isBlank

/-- Takes a run of characters in the class `p`, which must not be empty. -/
def takeRun (p : Char → Bool) (r : Reading) : Option (Span × Reading) :=
  if r.peek.any p then
    let next := r.skipWhile p
    some (.ofOffsets r.pos next.pos, next)
  else none

/-- Takes an identifier. -/
def takeIdentifier [IdentifierTables] (r : Reading) : Option (Span × Reading) :=
  if r.peek.any isIdentifierStart then r.takeRun isIdentifierContinue else none

/-- Takes the text before the next `c` and that `c`; gives the span of the text and the text. -/
def takeThrough (c : Char) (r : Reading) : Option (Span × List Char × Reading) :=
  let inner := r.rest.takeWhile (· ≠ c)
  match r.rest.dropWhile (· ≠ c) with
  | [] => none
  | _ :: rest =>
      let stop := r.pos + byteLength inner
      some (.ofOffsets r.pos stop, inner, { r with rest, pos := stop + c.utf8Size })

/-- Takes `text` if it comes next. -/
def takeText (text : List Char) (r : Reading) : Option Reading :=
  if text.isPrefixOf r.rest then
    some { r with rest := r.rest.drop text.length, pos := r.pos + byteLength text }
  else none

/-- Notes that a segment starts here. -/
def startSegment (r : Reading) : Reading :=
  { r with segmentStart := r.pos, expectsSegment := false }

/-! ### What is left of the text -/

/-- From `r` to `next` some of the text is taken. -/
def Passes (r next : Reading) : Prop := ∃ taken, taken ≠ [] ∧ taken ++ next.rest = r.rest

variable {r next last : Reading}

theorem Passes.suffix (h : r.Passes next) : next.rest <:+ r.rest := by
  obtain ⟨taken, -, htaken⟩ := h
  exact ⟨taken, htaken⟩

theorem Passes.length_lt (h : r.Passes next) : next.rest.length < r.rest.length := by
  obtain ⟨taken, hne, htaken⟩ := h
  have hpos : 0 < taken.length := List.length_pos_iff.mpr hne
  rw [← htaken, List.length_append]
  omega

theorem Passes.of_suffix (h : next.Passes last) (hsuffix : next.rest <:+ r.rest) :
    r.Passes last := by
  obtain ⟨taken, hne, htaken⟩ := h
  obtain ⟨front, hfront⟩ := hsuffix
  refine ⟨front ++ taken, by simp [hne], ?_⟩
  rw [List.append_assoc, htaken, hfront]

theorem Passes.to_suffix (h : r.Passes next) (hsuffix : last.rest <:+ next.rest) :
    r.Passes last := by
  obtain ⟨taken, hne, htaken⟩ := h
  obtain ⟨front, hfront⟩ := hsuffix
  refine ⟨taken ++ front, by simp [hne], ?_⟩
  rw [List.append_assoc, hfront, htaken]

theorem bump_suffix (r : Reading) : r.bump.rest <:+ r.rest := by
  unfold bump
  split
  · exact List.suffix_refl _
  · next h => exact h ▸ List.suffix_cons _ _

theorem passes_bump {c : Char} (h : r.peek = some c) : r.Passes r.bump := by
  obtain ⟨rest, hrest⟩ := List.head?_eq_some_iff.mp h
  exact ⟨[c], List.cons_ne_nil _ _, by simp [bump, hrest]⟩

theorem skipWhile_suffix (p : Char → Bool) (r : Reading) : (r.skipWhile p).rest <:+ r.rest :=
  ⟨r.rest.takeWhile p, List.takeWhile_append_dropWhile⟩

theorem passes_skipWhile {p : Char → Bool} (h : r.peek.any p) : r.Passes (r.skipWhile p) := by
  refine ⟨r.rest.takeWhile p, ?_, List.takeWhile_append_dropWhile⟩
  unfold peek at h
  cases hrest : r.rest with
  | nil => simp [hrest] at h
  | cons c rest => simp_all

theorem passes_takeRun {p : Char → Bool} {span : Span} (h : r.takeRun p = some (span, next)) :
    r.Passes next := by
  unfold takeRun at h
  split at h
  · next hp =>
      simp only [Option.some.injEq, Prod.mk.injEq] at h
      exact h.2 ▸ passes_skipWhile hp
  · simp at h

theorem passes_takeThrough {c : Char} {span : Span} {inner : List Char}
    (h : r.takeThrough c = some (span, inner, next)) : r.Passes next := by
  unfold takeThrough at h
  split at h
  · simp at h
  · next d rest hdrop =>
      simp only [Option.some.injEq, Prod.mk.injEq] at h
      refine ⟨r.rest.takeWhile (· ≠ c) ++ [d], by simp, ?_⟩
      rw [← h.2.2, List.append_assoc, List.singleton_append, ← hdrop,
        List.takeWhile_append_dropWhile]

theorem passes_takeText {text : List Char} (hne : text ≠ []) (h : r.takeText text = some next) :
    r.Passes next := by
  unfold takeText at h
  split at h
  · next hprefix =>
      obtain ⟨rest, hrest⟩ := List.isPrefixOf_iff_prefix.mp hprefix
      simp only [Option.some.injEq] at h
      refine ⟨text, hne, ?_⟩
      rw [← h, ← hrest, List.drop_left]
  · simp at h

theorem passes_takeIdentifier [IdentifierTables] {span : Span}
    (h : r.takeIdentifier = some (span, next)) : r.Passes next := by
  unfold takeIdentifier at h
  split at h
  · exact passes_takeRun h
  · simp at h

end Reading

end XamlAssist.Selector
