import XamlAssist.Document.Context
import XamlAssist.Proofs.Document.Carets

/-!
# The next sibling of the element under a caret

The search for the next sibling runs through three stretches of the text: to the end of the tag
under the caret, to the end of its element, and to the next tag. In a well-formed document no `<` on
the way is taken for that tag, be it in a value, in a comment, in the content of the element or at
its end. So the search stops behind the `<` of the next element on the level, or at the end of the
level.
-/

namespace XamlAssist.Document

open Text

/-- What begins with `<!` or `<?`. -/
def BeginsSpecial (s : List Char) : Prop := ∃ c more, (c = '!' ∨ c = '?') ∧ s = '<' :: c :: more

namespace Reading

variable {r : Reading} {opened : List Nat} {text : List Char}

/-! ### Searches -/

section Search

variable {stop : Reading → List Char → Bool} {s rest : List Char}

/-- From `r` on, the search reads through `s`, with `rest` behind it, and stops before no character
of it. -/
def Waits (stop : Reading → List Char → Bool) (r : Reading) (s rest : List Char) : Prop :=
  ∀ t u, s = t ++ u → u ≠ [] → stop (r.readAll t) (u ++ rest) = false

private theorem readUntil_append (h : r.Waits stop s rest) :
    r.readUntil stop (s ++ rest) = (r.readAll s).readUntil stop rest := by
  induction s generalizing r with
  | nil => rfl
  | cons c s ih =>
      have hc : stop r (c :: (s ++ rest)) = false := h [] (c :: s) rfl (List.cons_ne_nil c s)
      have hrest : (r.step c).Waits stop s rest := fun t u hsplit hu =>
        h (c :: t) u (by rw [hsplit]; rfl) hu
      rw [List.cons_append, readUntil, hc, readAll_cons, ← ih hrest]
      rfl

private theorem readUntil_of_stop (h : stop r rest = true) :
    r.readUntil stop rest = (r, some rest) := by
  cases rest with
  | nil => rw [readUntil, h]; rfl
  | cons c rest => rw [readUntil, h]; rfl

private theorem readUntil_of_waits (h : r.Waits stop s rest)
    (hstop : stop (r.readAll s) rest = true) :
    r.readUntil stop (s ++ rest) = (r.readAll s, some rest) := by
  rw [readUntil_append h, readUntil_of_stop hstop]

end Search

/-- The answer of the search for a sibling, from the tag that it has come to. -/
def siblingAt : Reading × Option (List Char) → Option Nat × Reading
  | (r, none) => (none, r)
  | (r, some rest) => (if rest.head? == some '/' then none else r.phase.tag?.map Tag.start, r)

/-- What the searches for the ends of the tag and of the element have come to decides where the
search for the next tag begins. -/
theorem seekSibling_eq {r mid last : Reading} {behindTag behindElement : List Char} (level : Nat)
    (hlevel : level = if r.phase.isInsideTag then r.nestingLevel - 1 else r.nestingLevel)
    (htag : r.readUntil (fun r _ => !r.phase.isInsideTag) (dropBytes text r.pos) =
      (mid, some behindTag))
    (helement : mid.readUntil (fun r _ => r.nestingLevel ≤ level) behindTag =
      (last, some behindElement)) :
    r.seekSibling text = siblingAt (last.readUntil isAtTagStart behindElement) := by
  subst hlevel
  unfold seekSibling
  rw [htag]
  dsimp only
  rw [helement]
  dsimp only
  split <;> next heq => rw [heq, siblingAt]

/-! ### No tag begins inside an item -/

private theorem isAtTagStart_of_isContent (h : r.phase.isContent = true) (rest : List Char) :
    r.isAtTagStart rest = false := by
  unfold isAtTagStart
  split
  · next hphase => exact absurd h (by simp [hphase, Phase.isContent])
  · rfl

private theorem isAtTagStart_of_start_lt {start : Nat}
    (h : ∀ tag spot, r.phase = .inTag tag spot → tag.start = start) (hpos : start + 1 < r.pos)
    (rest : List Char) : r.isAtTagStart rest = false := by
  unfold isAtTagStart
  split
  · next tag hphase =>
      have hne : r.pos ≠ tag.start + 1 := by
        rw [h tag .name hphase]
        omega
      simp [hne]
  · rfl

private theorem isAtTagStart_step_open (h : r.phase.isContent = true) (rest : List Char) :
    (r.step '<').isAtTagStart rest = !(rest.head? == some '!' || rest.head? == some '?') := by
  rw [step_open h]
  simp [isAtTagStart]

section Leaf

variable {s t u : List Char} {tag before : Tag} {spot place : Spot}

private theorem Between.start_of_isPrefix (h : r.Between opened) (hread : r.HasRead text)
    (hphase : (r.readAll s).phase = .inTag tag spot)
    (hopened : (r.readAll s).openTags = r.pos :: opened) (ht : t <+: s)
    (hbefore : (r.readAll t).phase = .inTag before place) : before.start = r.pos := by
  have hne : t ≠ [] := by
    rintro rfl
    exact ne_inTag (isInsideTag_of_isContent h.content) before place hbefore
  obtain ⟨_, _, hbefore', hstart, -⟩ := hread.inTag_of_isPrefix hphase hopened ht hne
  obtain ⟨rfl, -⟩ := Phase.inTag.inj (hbefore.symm.trans hbefore')
  exact hstart

/-- A comment or character data: its opener is read as a tag, all but the last character, and then
nothing up to the end is. -/
theorem Between.start_of_verbatim (h : r.Between opened) (hread : r.HasRead text)
    {lead opener rest : List Char} {c : Char} (hopener : opener = lead ++ [c])
    (hphase : (r.readAll lead).phase = .inTag tag spot)
    (hopened : (r.readAll lead).openTags = r.pos :: opened) (hrest : rest ≠ [])
    (hinside : ∀ v w, rest = v ++ w → w ≠ [] →
      (r.readAll (opener ++ v)).phase.isInsideTag = false)
    (hsplit : opener ++ rest = t ++ u) (hu : u ≠ [])
    (hbefore : (r.readAll t).phase = .inTag before place) : before.start = r.pos := by
  have hbehind : ∀ v w, rest = v ++ w → w ≠ [] → t ≠ opener ++ v := by
    rintro v w hv hw rfl
    exact ne_inTag (hinside v w hv hw) before place hbefore
  rcases List.append_eq_append_iff.mp hsplit with ⟨v, ht, hv⟩ | ⟨v, hsplit, -⟩
  · exact absurd ht (hbehind v u hv hu)
  · have hv : v ≠ [] := by
      rintro rfl
      exact hbehind [] rest rfl hrest (by rw [hsplit, List.append_nil, List.append_nil])
    rw [hopener] at hsplit
    exact h.start_of_isPrefix hread hphase hopened (isPrefix_of_split hsplit hv) hbefore

private theorem Between.start_of_inTag (h : r.Between opened) (hread : r.HasRead text)
    (inner : List Char) {c : Char} {P : Spot → Prop} {closing : Bool} {seen : List Char}
    (htag : (r.readAll inner).InTag P (r.pos :: opened) closing seen)
    (hsplit : inner ++ [c] = t ++ u) (hu : u ≠ [])
    (hbefore : (r.readAll t).phase = .inTag before place) : before.start = r.pos := by
  obtain ⟨hopened, tag, spot, hphase, -⟩ := htag
  exact h.start_of_isPrefix hread hphase hopened (isPrefix_of_split hsplit hu) hbefore

private theorem Between.start_of_leaf (h : r.Between opened) (hread : r.HasRead text) (item : Leaf)
    (hsplit : item.chars = t ++ u) (hu : u ≠ [])
    (hbefore : (r.readAll t).phase = .inTag before place) : before.start = r.pos := by
  have hopen := step_open h.content
  rw [h.opened_eq] at hopen
  cases item with
  | text chars plain =>
      have ht : '<' ∉ t := fun hmem => plain (by
        rw [show chars = t ++ u from hsplit]
        exact List.mem_append_left u hmem)
      exact absurd hbefore (ne_inTag (isInsideTag_of_isContent (h.text ht).content) before place)
  | comment body ends =>
      have hlead : r.readAll ['<', '!', '-'] = _ := congrArg (readAll · ['!', '-']) hopen
      refine h.start_of_verbatim hread
        (show ['<', '!', '-', '-'] = ['<', '!', '-'] ++ ['-'] from rfl)
        (congrArg Reading.phase hlead) (congrArg Reading.openTags hlead) (by simp)
        (fun v w hv hw => ?_) hsplit hu hbefore
      rw [readAll_append, h.openComment,
        readAll_before_terminator (fun _ _ _ => rfl) endsComment_iff ends hv hw]
      rfl
  | cdata body ends =>
      have hlead : r.readAll ['<', '!', '[', 'C', 'D', 'A', 'T', 'A'] = _ :=
        congrArg (readAll · ['!', '[', 'C', 'D', 'A', 'T', 'A']) hopen
      refine h.start_of_verbatim hread
        (show ['<', '!', '[', 'C', 'D', 'A', 'T', 'A', '['] =
          ['<', '!', '[', 'C', 'D', 'A', 'T', 'A'] ++ ['['] from rfl)
        (congrArg Reading.phase hlead) (congrArg Reading.openTags hlead) (by simp)
        (fun v w hv hw => ?_) hsplit hu hbefore
      rw [readAll_append, h.openCdata,
        readAll_before_terminator (fun _ _ _ => rfl) endsCdata_iff ends hv hw]
      rfl
  | instruction body =>
      have htag := (inTag_of_body h.content body ['?'] (.inr rfl)).question
      rw [h.opened_eq] at htag
      exact h.start_of_inTag hread ('<' :: '?' :: (body.chars ++ ['?'])) (c := '>')
        (by simpa using htag) (by rw [← hsplit]; simp [Leaf.chars]) hu hbefore
  | declaration decl =>
      obtain ⟨seen, htag, -⟩ := inTag_of_declaration h decl
      rw [← readAll_cons] at htag
      exact h.start_of_inTag hread _ htag (c := '>')
        (by rw [← hsplit]; simp [Leaf.chars, Declaration.chars]) hu hbefore
  | emptyElement body =>
      have htag := (inTag_of_body h.content body [] (.inl rfl)).slash
      rw [h.opened_eq] at htag
      exact h.start_of_inTag hread ('<' :: (body.chars ++ ['/'])) (c := '>')
        (by simpa using htag) (by rw [← hsplit]; simp [Leaf.chars]) hu hbefore

end Leaf

/-! ### The next tag on a level -/

section Level

variable {rest : List Char}

private theorem Between.waits_text (h : r.Between opened) {s : List Char} (hs : '<' ∉ s) :
    r.Waits isAtTagStart s rest := by
  rintro t u rfl _
  exact isAtTagStart_of_isContent (h.text fun hmem => hs (List.mem_append_left u hmem)).content _

private theorem Between.waits_special (h : r.Between opened) (hread : r.HasRead text) (item : Leaf)
    (hspecial : BeginsSpecial item.chars) : r.Waits isAtTagStart item.chars rest := by
  obtain ⟨d, more, hd, hchars⟩ := hspecial
  intro t u hsplit hu
  match t with
  | [] => exact isAtTagStart_of_isContent h.content _
  | [c] =>
      obtain ⟨rfl, rfl⟩ := List.cons.inj (hchars.symm.trans hsplit)
      rw [readAll_cons, readAll_nil, isAtTagStart_step_open h.content]
      rcases hd with rfl | rfl <;> simp
  | c :: c' :: t =>
      refine isAtTagStart_of_start_lt
        (fun _ _ hbefore => h.start_of_leaf hread item hsplit hu hbefore) ?_ _
      have hc := c.utf8Size_pos
      have hc' := c'.utf8Size_pos
      simp only [readAll_pos, byteLength_cons]
      omega

/-- The answer names the element `next`, with the reading right behind its `<` and `opened` around
it; or there is no such element. -/
structure FindsElement (found : Option Nat × Reading) (opened : List Nat) (next : Option Nat) :
    Prop where
  offset_eq : found.1 = next
  reading_eq : ∀ start, next = some start →
    found.2 = ⟨start + 1, .inTag { start, nameStart := start + 1 } .name, start :: opened⟩

private theorem Between.readUntil_open (h : r.Between opened) {c : Char} (hbang : c ≠ '!')
    (hquestion : c ≠ '?') (rest : List Char) :
    r.readUntil isAtTagStart ('<' :: c :: rest) = (r.step '<', some (c :: rest)) := by
  have hstop : (r.step '<').isAtTagStart (c :: rest) = true := by
    rw [isAtTagStart_step_open h.content]
    simp [hbang, hquestion]
  rw [readUntil, isAtTagStart_of_isContent h.content, if_neg Bool.false_ne_true,
    readUntil_of_stop hstop]

private theorem Between.finds_element (h : r.Between opened) (name : Name) (rest : List Char) :
    FindsElement (siblingAt (r.readUntil isAtTagStart ('<' :: (name.chars ++ rest)))) opened
      (some r.pos) := by
  obtain ⟨hplain, hbang, hquestion⟩ := name.first_plain
  have hslash : name.first ≠ '/' := (ne_of_isNameChar hplain).2.2.2.1
  rw [Name.chars, List.cons_append, h.readUntil_open hbang hquestion, step_open h.content,
    h.opened_eq]
  refine ⟨?_, ?_⟩
  · simp [siblingAt, hslash, Phase.tag?]
  · rintro start heq
    obtain rfl := Option.some.inj heq
    rfl

private theorem Between.finds_end (h : r.Between opened) {behind : List Char}
    (hends : Markup.EndsLevel behind) :
    FindsElement (siblingAt (r.readUntil isAtTagStart behind)) opened none := by
  refine ⟨?_, fun _ hnone => absurd hnone.symm (Option.some_ne_none _)⟩
  rcases hends with rfl | ⟨more, rfl⟩
  · rw [readUntil, isAtTagStart_of_isContent h.content]
    rfl
  · rw [h.readUntil_open (by decide) (by decide)]
    rfl

private theorem findsElement_leaf {item : Leaf} {rest : Markup} {behind : List Char}
    (hwaits : r.Waits isAtTagStart item.chars (rest.chars ++ behind))
    (hrest : FindsElement (siblingAt ((r.readAll item.chars).readUntil isAtTagStart
      (rest.chars ++ behind))) opened (rest.firstElement? (r.readAll item.chars).pos)) :
    FindsElement (siblingAt (r.readUntil isAtTagStart ((Markup.leaf item rest).chars ++ behind)))
      opened (rest.firstElement? (r.pos + byteLength item.chars)) := by
  rw [Markup.chars, List.append_assoc, readUntil_append hwaits, ← readAll_pos]
  exact hrest

/-- Between two items the search comes to the first element that follows on the level. -/
theorem Between.finds_items (h : r.Between opened) (hread : r.HasRead text) (items : Markup)
    {behind : List Char} (hends : Markup.EndsLevel behind) :
    FindsElement (siblingAt (r.readUntil isAtTagStart (items.chars ++ behind))) opened
      (items.firstElement? r.pos) := by
  induction items generalizing r text with
  | done => exact h.finds_end hends
  | leaf item rest ih =>
      have hrest := ih (h.leaf item) (hread.readAll item.chars)
      cases item with
      | text chars plain => exact findsElement_leaf (h.waits_text plain) hrest
      | comment body ends =>
          exact findsElement_leaf (h.waits_special hread _ ⟨'!', _, .inl rfl, rfl⟩) hrest
      | cdata body ends =>
          exact findsElement_leaf (h.waits_special hread _ ⟨'!', _, .inl rfl, rfl⟩) hrest
      | instruction body =>
          exact findsElement_leaf (h.waits_special hread _ ⟨'?', _, .inr rfl, rfl⟩) hrest
      | declaration decl =>
          exact findsElement_leaf (h.waits_special hread _ ⟨'!', _, .inl rfl, rfl⟩) hrest
      | emptyElement body =>
          have helement := h.finds_element body.name
            (body.attributes.flatMap Attribute.chars ++ (body.trailing.chars ++
              ('/' :: '>' :: (rest.chars ++ behind))))
          simpa [Markup.chars, Leaf.chars, TagBody.chars, Markup.firstElement?] using helement
  | element body content blanks rest =>
      have helement := h.finds_element body.name
        (body.attributes.flatMap Attribute.chars ++ (body.trailing.chars ++
          ('>' :: (content.chars ++ (body.closingTag blanks ++ (rest.chars ++ behind))))))
      simpa [Markup.chars, TagBody.startTag, TagBody.chars, Markup.firstElement?] using helement

end Level

/-! ### The end of an element -/

private theorem HasRead.lt_pos_of_mem (h : r.HasRead text) {start : Nat}
    (hmem : start ∈ r.openTags) :
    start < r.pos := by
  obtain ⟨seen, hseen⟩ := h.marks start hmem
  rw [h.pos_eq, hseen.byteLength_eq]
  omega

/-- Behind the start tag of an element, its level is left with the end of its closing tag and not
before. -/
theorem Between.waits_element {start : Nat} (h : r.Between (start :: opened))
    (hread : r.HasRead text) (content : Markup) (body : TagBody) (blanks : Blanks)
    (rest : List Char) :
    r.Waits (fun r _ => r.nestingLevel ≤ opened.length) (content.chars ++ body.closingTag blanks)
      rest := by
  intro t u hsplit hu
  obtain ⟨v, hv⟩ : t <+: content.chars ++ '<' :: '/' :: (body.name.chars ++ blanks.chars) :=
    isPrefix_of_split (c := '>') (by rw [← hsplit]; simp [TagBody.closingTag]) hu
  obtain ⟨seen, hclosing, -⟩ := (h.markup content).inClosingTag body blanks
  rw [← readAll_append, ← hv, readAll_append] at hclosing
  have hopen : start :: opened <:+ (r.readAll t).openTags := by
    refine suffix_of_readAll (s := v) ?_ fun other hmem => ?_
    · rw [hclosing]
      exact List.suffix_cons _ _
    · rw [readAll_pos]
      exact Nat.lt_add_right _ (hread.lt_pos_of_mem (h.opened_eq ▸ hmem))
  have hlevel : opened.length < (r.readAll t).nestingLevel := hopen.length_le
  simpa using hlevel

private theorem Between.waits_tag (h : r.Between opened) (hread : r.HasRead text) (body : TagBody)
    {ending t u : List Char} (hending : ending = ['>'] ∨ ending = ['/', '>'])
    (hsplit : '<' :: (body.chars ++ ending) = t ++ u) (ht : t ≠ []) (rest : List Char) :
    (r.readAll t).Waits (fun r _ => !r.phase.isInsideTag) u rest := by
  rintro v w rfl hw
  obtain ⟨tag, spot, hphase, -⟩ := h.inTag_of_split hread body hending
    (hsplit.trans (List.append_assoc t v w).symm) (by simp [ht]) hw
  rw [readAll_append] at hphase
  dsimp only
  rw [hphase]
  rfl

private theorem Between.nestingLevel_eq (h : r.Between opened) : r.nestingLevel = opened.length :=
  congrArg List.length h.opened_eq

private theorem Between.exists_element_end (h : r.Between opened) (hread : r.HasRead text)
    {items : Markup} {body : TagBody} {ending : List Char} {length : Nat} {rest : Markup}
    (hbegins : items.BeginsWith body ending length rest) (behind : List Char) :
    ∃ more, items.chars = ('<' :: (body.chars ++ ending)) ++ (more ++ rest.chars) ∧
      length = byteLength (('<' :: (body.chars ++ ending)) ++ more) ∧
      (r.readAll ('<' :: (body.chars ++ ending))).phase.isContent = true ∧
      (r.readAll (('<' :: (body.chars ++ ending)) ++ more)).Between opened ∧
      (r.readAll ('<' :: (body.chars ++ ending))).readUntil
          (fun r _ => r.nestingLevel ≤ opened.length) (more ++ behind) =
        (r.readAll (('<' :: (body.chars ++ ending)) ++ more), some behind) := by
  cases hbegins with
  | emptyElement body rest =>
      have hend := h.emptyElement body
      refine ⟨[], by simp [Markup.chars, Leaf.chars], by simp [Leaf.chars], hend.content,
        by simpa using hend, ?_⟩
      rw [List.append_nil, List.nil_append]
      exact readUntil_of_stop (decide_eq_true (Nat.le_of_eq hend.nestingLevel_eq))
  | element body content blanks rest =>
      have hstart := h.startTag body
      have hend := (hstart.markup content).closingTag body blanks
      rw [← readAll_append, ← readAll_append] at hend
      refine ⟨content.chars ++ body.closingTag blanks, by simp [Markup.chars, TagBody.startTag],
        rfl, hstart.content, hend, ?_⟩
      rw [readAll_append] at hend ⊢
      exact readUntil_of_waits
        (hstart.waits_element (hread.readAll body.startTag) content body blanks behind)
        (decide_eq_true (Nat.le_of_eq hend.nestingLevel_eq))

/-! ### The next sibling -/

private theorem seekSibling_of_content {before s rest : List Char} {items : Markup}
    {behind : List Char} (h : r.Between opened) (hread : r.HasRead before) (hs : '<' ∉ s)
    (hitems : items.chars ++ behind = s ++ rest) (hends : Markup.EndsLevel behind) :
    FindsElement ((r.readAll s).seekSibling (before ++ (s ++ rest))) opened
      (items.firstElement? r.pos) := by
  have hcaret := h.text hs
  have hdrop : dropBytes (before ++ (s ++ rest)) (r.readAll s).pos = rest := by
    rw [(hread.readAll s).pos_eq, ← List.append_assoc, dropBytes_append]
  have houtside := isInsideTag_of_isContent hcaret.content
  have hfinds := h.finds_items hread items hends
  rw [hitems, readUntil_append (h.waits_text hs)] at hfinds
  rw [seekSibling_eq opened.length (by rw [houtside]; exact hcaret.nestingLevel_eq.symm)
    (readUntil_of_stop (by rw [houtside]; rfl))
    (readUntil_of_stop (decide_eq_true (Nat.le_of_eq hcaret.nestingLevel_eq))), hdrop]
  exact hfinds

private theorem seekSibling_of_tag {before t u behind : List Char} {items rest : Markup}
    {body : TagBody}
    {ending : List Char} {length : Nat} (h : r.Between opened) (hread : r.HasRead before)
    (hbegins : items.BeginsWith body ending length rest) (hends : Markup.EndsLevel behind)
    (hsplit : '<' :: (body.chars ++ ending) = t ++ u) (ht : t ≠ []) (hu : u ≠ []) :
    FindsElement ((r.readAll t).seekSibling (before ++ (items.chars ++ behind))) opened
      (rest.firstElement? (r.pos + length)) := by
  obtain ⟨more, hchars, hlength, hcontent, hend, hsearch⟩ :=
    h.exists_element_end hread hbegins (rest.chars ++ behind)
  obtain ⟨tag, spot, hphase, -, hopened⟩ :=
    h.inTag_of_split hread body hbegins.ending_eq hsplit ht hu
  have hdrop : dropBytes (before ++ (items.chars ++ behind)) (r.readAll t).pos =
      u ++ (more ++ (rest.chars ++ behind)) := by
    have htext : before ++ (items.chars ++ behind) =
        (before ++ t) ++ (u ++ (more ++ (rest.chars ++ behind))) := by
      rw [hchars, hsplit]
      simp
    rw [(hread.readAll t).pos_eq, htext, dropBytes_append]
  have hlevel : opened.length = if (r.readAll t).phase.isInsideTag
      then (r.readAll t).nestingLevel - 1 else (r.readAll t).nestingLevel := by
    rw [hphase, nestingLevel, hopened]
    rfl
  have houtside : (!((r.readAll t).readAll u).phase.isInsideTag) = true := by
    rw [← readAll_append, ← hsplit, isInsideTag_of_isContent hcontent]
    rfl
  have htag := readUntil_of_waits
    (h.waits_tag hread body hbegins.ending_eq hsplit ht (more ++ (rest.chars ++ behind)))
    houtside
  rw [← hdrop, ← readAll_append, ← hsplit] at htag
  rw [seekSibling_eq opened.length hlevel htag hsearch, hlength, ← readAll_pos]
  exact hend.finds_items (hread.readAll _) rest hends

/-- In a well-formed document the search for a sibling gives the next element on the level of the
caret, or of the element whose tag the caret is in, and none if the level ends before. It stops
right behind the `<` of that element, with the parents of the caret open around it. -/
theorem seekSibling_of_caret (markup : Markup) (offset : Nat) (around : Surroundings)
    (h : markup.Caret offset around) :
    let found := (upTo markup.chars offset).seekSibling markup.chars
    found.1 = around.next ∧
      ∀ start, around.next = some start →
        found.2 = ⟨start + 1, .inTag { start, nameStart := start + 1 } .name,
          start :: around.parents.map Element.start⟩ := by
  have hfinds : FindsElement ((upTo markup.chars offset).seekSibling markup.chars)
      (around.parents.map Element.start) around.next := by
    cases h with
    | @content place items elements hholds hstart hstop =>
        obtain ⟨before, s, rest, behind, htext, hplace, hitems, hends, hs, hbetween, hread⟩ :=
          hholds.exists_upTo_content hstart hstop
        rw [hread, htext]
        have hfinds := seekSibling_of_content hbetween (hasRead_start.readAll before) hs hitems
          hends
        rwa [readAll_pos, Nat.zero_add, hplace] at hfinds
    | @tag place length items rest elements body ending hholds hbegins hstart hstop =>
        obtain ⟨before, t, u, behind, htext, hplace, hends, hsplit, ht, hu, hbetween, hread⟩ :=
          hholds.exists_upTo_tag hbegins hstart hstop
        rw [hread, htext]
        have hfinds := seekSibling_of_tag hbetween (hasRead_start.readAll before) hbegins hends
          hsplit ht hu
        rwa [readAll_pos, Nat.zero_add, hplace] at hfinds
  exact ⟨hfinds.offset_eq, hfinds.reading_eq⟩

section Example

private theorem endsFirst_bracket : EndsFirst ['-', '-', '>'] ['<'] := by
  intro before after h
  have hlength := congrArg List.length h
  match before with
  | [] => simp at h
  | [c] =>
      have hsame : '<' = c ∧ after = [] := by simpa using h
      exact hsame.2
  | _ :: _ :: before => simp at hlength; omega

private def parentTag : TagBody := ⟨.letter 0, [], .none⟩

private def firstTag : TagBody :=
  ⟨.letter 1, [.plain (.letter 10) ['<', 'x', '/', '>'] (by decide)], .none⟩

/-- The items `<!--<--><c></c>`. -/
private def innerItems : Markup :=
  .leaf (.comment ['<'] endsFirst_bracket) (.element ⟨.letter 2, [], .none⟩ .done .none .done)

/-- The items `ö<?p?><d/>`. -/
private def laterItems : Markup :=
  .leaf (.text ['ö'] (by decide))
    (.leaf (.instruction ⟨.letter 15, [], .none⟩)
      (.leaf (.emptyElement ⟨.letter 3, [], .none⟩) .done))

/-- The document `<a><b k ="<x/>"><!--<--><c></c></b>ö<?p?><d/></a>`. -/
private def familyMarkup : Markup :=
  .element parentTag (.element firstTag innerItems .none laterItems) .none .done

/-- From inside the value of `b` the search passes over its comment and its child `c`, and over the
text and the instruction behind it, and comes to `d`. -/
theorem seekSibling_of_caret_family :
    familyMarkup.Caret 11 ⟨[⟨0, parentTag⟩], some ⟨3, firstTag⟩, some 42⟩ ∧
      (upTo familyMarkup.chars 11).seekSibling familyMarkup.chars =
        (some 42, ⟨43, .inTag { start := 42, nameStart := 43 } .name, [42, 0]⟩) := by
  have hholds : familyMarkup.Holds 0 3 (.element firstTag innerItems .none laterItems)
      [⟨0, parentTag⟩] := .inElement (.here _ _)
  have hcaret : familyMarkup.Caret 11 ⟨[⟨0, parentTag⟩], some ⟨3, firstTag⟩, some 42⟩ :=
    .tag hholds (.element _ innerItems _ laterItems) (by decide) (by decide)
  obtain ⟨hoffset, hreading⟩ := seekSibling_of_caret familyMarkup 11 _ hcaret
  exact ⟨hcaret, Prod.ext hoffset (hreading 42 rfl)⟩

end Example

end Reading

end XamlAssist.Document
