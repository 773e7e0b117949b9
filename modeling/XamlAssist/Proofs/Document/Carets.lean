import XamlAssist.Proofs.Document.OpenElements
import XamlAssist.Proofs.Document.Placement
import XamlAssist.Proofs.Document.Steps

/-!
# Carets in well-formed documents

A caret may stand between two items, inside a text, or inside the tag of an element. `Markup.Caret`
tells what is around it: the elements that it is in, the element whose tag it is in, and the next
element on its level. The reading up to a caret has just its open elements open
(`Markup.Caret.openTags_upTo`).
-/

namespace XamlAssist.Document

open Text

/-- An element by the offset of its `<` and what stands in its tag. -/
structure Element where
  start : Nat
  body : TagBody

namespace Markup

/-- In markup that begins at the offset `start`, the items `items`, up to the end of their level,
begin at `place`, and `elements` are the elements around them, the outermost first. -/
inductive Holds : Nat → Markup → Nat → Markup → List Element → Prop
  | here (start : Nat) (markup : Markup) : Holds start markup start markup []
  | behindLeaf {start place : Nat} {item : Leaf} {rest items : Markup} {elements : List Element} :
      Holds (start + byteLength item.chars) rest place items elements →
        Holds start (leaf item rest) place items elements
  | inElement {start place : Nat} {body : TagBody} {content rest items : Markup} {blanks : Blanks}
      {elements : List Element} :
      Holds (start + byteLength body.startTag) content place items elements →
        Holds start (element body content blanks rest) place items (⟨start, body⟩ :: elements)
  | behindElement {start place : Nat} {body : TagBody} {content rest items : Markup}
      {blanks : Blanks} {elements : List Element} :
      Holds (start + byteLength (body.startTag ++ (content.chars ++ body.closingTag blanks))) rest
          place items elements →
        Holds start (element body content blanks rest) place items elements

/-- The text that the items begin with. -/
def leadingText : Markup → List Char
  | leaf (.text chars _) _ => chars
  | _ => []

/-- The items begin with an element of `length` bytes, and `rest` follows it. Its tag has the body
`body` and ends with `ending`. -/
inductive BeginsWith : Markup → TagBody → List Char → Nat → Markup → Prop
  | emptyElement (body : TagBody) (rest : Markup) :
      BeginsWith (leaf (.emptyElement body) rest) body ['/', '>']
        (byteLength (Leaf.emptyElement body).chars) rest
  | element (body : TagBody) (content : Markup) (blanks : Blanks) (rest : Markup) :
      BeginsWith (element body content blanks rest) body ['>']
        (byteLength (body.startTag ++ (content.chars ++ body.closingTag blanks))) rest

/-- The offset of the first element among items that begin at `start`, not inside other elements. -/
def firstElement? (start : Nat) : Markup → Option Nat
  | done => none
  | leaf (.emptyElement _) _ => some start
  | leaf item rest => rest.firstElement? (start + byteLength item.chars)
  | element .. => some start

end Markup

/-- What is around a caret. -/
structure Surroundings where
  /-- The elements that the caret is in, the innermost first. -/
  parents : List Element
  /-- The element whose tag the caret is in. -/
  current : Option Element
  /-- The offset of the next element on the level of the caret, or of the element whose tag it is
  in. -/
  next : Option Nat

/-- The elements with a tag before the caret that is not closed, the innermost first. -/
def Surroundings.openElements (around : Surroundings) : List Element :=
  around.current.toList ++ around.parents

namespace Markup

/-- In a document, a caret at `offset` has the given surroundings. -/
inductive Caret (markup : Markup) (offset : Nat) : Surroundings → Prop
  /-- Between two items or inside a text. -/
  | content {place : Nat} {items : Markup} {elements : List Element} :
      markup.Holds 0 place items elements → place ≤ offset →
      offset ≤ place + byteLength items.leadingText →
        Caret markup offset ⟨elements.reverse, none, items.firstElement? place⟩
  /-- Inside the tag of an element, behind its `<` and before the end of its `>`. -/
  | tag {place length : Nat} {items rest : Markup} {elements : List Element} {body : TagBody}
      {ending : List Char} :
      markup.Holds 0 place items elements → items.BeginsWith body ending length rest →
      place < offset → offset < place + byteLength ('<' :: (body.chars ++ ending)) →
        Caret markup offset
          ⟨elements.reverse, some ⟨place, body⟩, rest.firstElement? (place + length)⟩

variable {start place : Nat} {markup items : Markup} {elements : List Element}

/-! ### The text around a place -/

/-- Behind the items of a level stands the closing tag of the element around them, or nothing. -/
def EndsLevel (behind : List Char) : Prop := behind = [] ∨ ∃ more, behind = '<' :: '/' :: more

theorem EndsLevel.append {behind more : List Char} (h : EndsLevel behind) (hmore : EndsLevel more) :
    EndsLevel (behind ++ more) := by
  rcases h with rfl | ⟨rest, rfl⟩
  · exact hmore
  · exact .inr ⟨rest ++ more, rfl⟩

private theorem Holds.exists_chars (h : markup.Holds start place items elements) :
    ∃ before behind, markup.chars = before ++ (items.chars ++ behind) ∧
      start + byteLength before = place ∧ EndsLevel behind := by
  induction h with
  | here start markup => exact ⟨[], [], by simp, rfl, .inl rfl⟩
  | @behindLeaf start place item rest items elements _ ih =>
      obtain ⟨before, behind, hchars, hplace, hends⟩ := ih
      refine ⟨item.chars ++ before, behind, by simp [chars, hchars], ?_, hends⟩
      rw [byteLength_append, ← Nat.add_assoc, hplace]
  | @inElement start place body content rest items blanks elements _ ih =>
      obtain ⟨before, behind, hchars, hplace, hends⟩ := ih
      refine ⟨body.startTag ++ before, behind ++ (body.closingTag blanks ++ rest.chars),
        by simp [chars, hchars], ?_, hends.append (.inr ⟨_, rfl⟩)⟩
      rw [byteLength_append, ← Nat.add_assoc, hplace]
  | @behindElement start place body content rest items blanks elements _ ih =>
      obtain ⟨before, behind, hchars, hplace, hends⟩ := ih
      refine ⟨(body.startTag ++ (content.chars ++ body.closingTag blanks)) ++ before, behind,
        by simp [chars, hchars], ?_, hends⟩
      rw [byteLength_append, ← Nat.add_assoc, hplace]

theorem Holds.stands (h : markup.Holds start place items elements) :
    markup.Stands start place (elements.map Element.start) := by
  induction h with
  | here start markup => exact .first start markup
  | behindLeaf _ ih => exact .behindLeaf ih
  | inElement _ ih => exact .inElement ih
  | behindElement _ ih => exact .behindElement ih

/-- The text before a place, read from the start, leaves the elements around the place open. -/
theorem Holds.exists_before (h : markup.Holds 0 place items elements) :
    ∃ before behind, markup.chars = before ++ (items.chars ++ behind) ∧
      byteLength before = place ∧ EndsLevel behind ∧
      (({} : Reading).readAll before).Between (elements.reverse.map Element.start) := by
  obtain ⟨before, behind, hchars, hplace, hends⟩ := h.exists_chars
  rw [Nat.zero_add] at hplace
  have hstart : ({} : Reading).Between [] := ⟨rfl, rfl⟩
  have hbetween := hstart.readUpTo h.stands rfl []
  have hread : ({} : Reading).readUpTo place markup.chars = ({} : Reading).readAll before := by
    rw [Reading.readUpTo_eq_readAll, hchars, Nat.sub_zero, ← hplace, takeBytes_append]
  rw [List.append_nil, hread, List.append_nil, ← List.map_reverse] at hbetween
  exact ⟨before, behind, hchars, hplace, hends, hbetween⟩

/-! ### The tags of elements -/

private theorem BeginsWith.exists_chars {body : TagBody} {ending : List Char} {length : Nat}
    {rest : Markup} (h : items.BeginsWith body ending length rest) :
    ∃ more, items.chars = ('<' :: (body.chars ++ ending)) ++ (more ++ rest.chars) := by
  cases h with
  | emptyElement body rest => exact ⟨[], by simp [chars, Leaf.chars]⟩
  | element body content blanks rest =>
      exact ⟨content.chars ++ body.closingTag blanks, by simp [chars, TagBody.startTag]⟩

theorem BeginsWith.ending_eq {body : TagBody} {ending : List Char} {length : Nat} {rest : Markup}
    (h : items.BeginsWith body ending length rest) : ending = ['>'] ∨ ending = ['/', '>'] := by
  cases h with
  | emptyElement => exact .inr rfl
  | element => exact .inl rfl

end Markup

/-- The tag of the element stands in the text. -/
def Element.StandsIn (element : Element) (text : List Char) : Prop :=
  ∃ before ending more, text = before ++ ('<' :: (element.body.chars ++ (ending ++ more))) ∧
    byteLength before = element.start ∧ (ending = ['>'] ∨ ending = ['/', '>'])

namespace Markup

private theorem Holds.exists_tag {start place : Nat} {markup items : Markup}
    {elements : List Element}
    (h : markup.Holds start place items elements) {element : Element} (hmem : element ∈ elements) :
    ∃ before more, markup.chars = before ++ ('<' :: (element.body.chars ++ '>' :: more)) ∧
      start + byteLength before = element.start := by
  induction h with
  | here => exact absurd hmem List.not_mem_nil
  | @behindLeaf start place item rest items elements _ ih =>
      obtain ⟨before, more, hchars, hstart⟩ := ih hmem
      refine ⟨item.chars ++ before, more, by simp [chars, hchars], ?_⟩
      rw [byteLength_append, ← Nat.add_assoc, hstart]
  | @inElement start place body content rest items blanks elements _ ih =>
      rcases List.mem_cons.mp hmem with rfl | hmem
      · refine ⟨[], content.chars ++ (body.closingTag blanks ++ rest.chars), ?_, rfl⟩
        simp [chars, TagBody.startTag]
      · obtain ⟨before, more, hchars, hstart⟩ := ih hmem
        refine ⟨body.startTag ++ before, more ++ (body.closingTag blanks ++ rest.chars),
          by simp [chars, hchars], ?_⟩
        rw [byteLength_append, ← Nat.add_assoc, hstart]
  | @behindElement start place body content rest items blanks elements _ ih =>
      obtain ⟨before, more, hchars, hstart⟩ := ih hmem
      refine ⟨(body.startTag ++ (content.chars ++ body.closingTag blanks)) ++ before, more,
        by simp [chars, hchars], ?_⟩
      rw [byteLength_append, ← Nat.add_assoc, hstart]

theorem Holds.standsIn {place : Nat} {markup items : Markup} {elements : List Element}
    (h : markup.Holds 0 place items elements) {element : Element} (hmem : element ∈ elements) :
    element.StandsIn markup.chars := by
  obtain ⟨before, more, hchars, hstart⟩ := h.exists_tag hmem
  rw [Nat.zero_add] at hstart
  exact ⟨before, ['>'], more, hchars, hstart, .inl rfl⟩

theorem Caret.standsIn {markup : Markup} {offset : Nat} {around : Surroundings}
    (h : markup.Caret offset around) {element : Element} (hmem : element ∈ around.openElements) :
    element.StandsIn markup.chars := by
  cases h with
  | content hholds _ _ =>
      exact hholds.standsIn (List.mem_reverse.mp (by simpa [Surroundings.openElements] using hmem))
  | @tag _ _ _ rest _ _ ending hholds hbegins _ _ =>
      rcases List.mem_cons.mp hmem with rfl | hmem
      · obtain ⟨before, behind, hchars, hplace, -, -⟩ := hholds.exists_before
        obtain ⟨more, hitems⟩ := hbegins.exists_chars
        exact ⟨before, ending, more ++ (rest.chars ++ behind), by simp [hchars, hitems], hplace,
          hbegins.ending_eq⟩
      · exact hholds.standsIn (List.mem_reverse.mp hmem)

end Markup

/-! ### The reading at a caret -/

namespace Reading

private theorem upTo_append {before s : List Char} {offset : Nat}
    (hstart : byteLength before ≤ offset)
    (hstop : offset ≤ byteLength before + byteLength s) (more : List Char) :
    upTo (before ++ (s ++ more)) offset =
      (({} : Reading).readAll before).readAll (takeBytes s (offset - byteLength before)) := by
  rw [upTo_eq_readAll, takeBytes_append_of_le hstart, takeBytes_append_of_ge (by omega),
    readAll_append]

theorem HasRead.inTag_of_isPrefix {r : Reading} {text s t : List Char} {opened : List Nat}
    {tag : Tag} {spot : Spot} (hread : r.HasRead text)
    (hphase : (r.readAll s).phase = .inTag tag spot)
    (hopened : (r.readAll s).openTags = r.pos :: opened) (ht : t <+: s) (hne : t ≠ []) :
    ∃ before place, (r.readAll t).phase = .inTag before place ∧ before.start = r.pos ∧
      (r.readAll t).openTags = r.pos :: opened := by
  have hstart : tag.start = r.pos := by
    have hhead := ((hread.readAll s).innermost tag spot hphase).1
    rw [hopened] at hhead
    exact (Option.some.inj hhead).symm
  have hpast : tag.start < (r.readAll t).pos := by
    have hpos := byteLength_pos hne
    rw [readAll_pos]
    omega
  obtain ⟨v, rfl⟩ := ht
  rw [readAll_append] at hphase hopened
  obtain ⟨before, place, hbefore, hsame, htags⟩ := inTag_of_readAll hphase hpast
  exact ⟨before, place, hbefore, hsame.trans hstart, htags.symm.trans hopened⟩

theorem isPrefix_of_split {s t u : List Char} {c : Char} (hsplit : s ++ [c] = t ++ u)
    (hu : u ≠ []) : t <+: s := by
  have hprefix : t <+: s ++ [c] := ⟨u, hsplit.symm⟩
  refine (List.prefix_concat_iff.mp hprefix).resolve_left fun heq => hu ?_
  rw [heq] at hsplit
  exact List.append_right_eq_self.mp hsplit.symm

/-- Behind the `<` of an element and before the end of its `>`, the reading is in this tag. -/
theorem Between.inTag_of_split {r : Reading} {opened : List Nat} {text : List Char}
    (h : r.Between opened) (hread : r.HasRead text) (body : TagBody) {ending t u : List Char}
    (hending : ending = ['>'] ∨ ending = ['/', '>'])
    (hsplit : '<' :: (body.chars ++ ending) = t ++ u) (ht : t ≠ []) (hu : u ≠ []) :
    ∃ tag spot, (r.readAll t).phase = .inTag tag spot ∧ tag.start = r.pos ∧
      (r.readAll t).openTags = r.pos :: opened := by
  have hbody := inTag_of_body h.content body [] (.inl rfl)
  rw [List.nil_append, h.opened_eq] at hbody
  obtain ⟨inner, hinner, seen, hin⟩ : ∃ inner, body.chars ++ ending = inner ++ ['>'] ∧
      ∃ seen, (r.readAll ('<' :: inner)).InTag IsRest (r.pos :: opened) false seen := by
    rcases hending with rfl | rfl
    · exact ⟨body.chars, rfl, _, hbody⟩
    · refine ⟨body.chars ++ ['/'], by simp, '/' :: body.chars.reverse, ?_⟩
      rw [readAll_cons, readAll_append]
      exact hbody.slash
  obtain ⟨hopened, tag, spot, hphase, -⟩ := hin
  rw [hinner, ← List.cons_append] at hsplit
  exact hread.inTag_of_isPrefix hphase hopened (isPrefix_of_split hsplit hu) ht

end Reading

namespace Markup

variable {place offset : Nat} {markup items : Markup} {elements : List Element}

private theorem leadingText_plain (items : Markup) : '<' ∉ items.leadingText := by
  unfold leadingText
  split
  · next plain _ => exact plain
  · exact List.not_mem_nil

private theorem exists_leadingText (items : Markup) :
    ∃ more, items.chars = items.leadingText ++ more := by
  unfold leadingText
  split
  · exact ⟨_, rfl⟩
  · exact ⟨_, rfl⟩

/-- A caret in a text, or between two items, by the text `t` between the items before it and it. -/
theorem Holds.exists_upTo_content (h : markup.Holds 0 place items elements)
    (hstart : place ≤ offset)
    (hstop : offset ≤ place + byteLength items.leadingText) :
    ∃ before t rest behind, markup.chars = before ++ (t ++ rest) ∧ byteLength before = place ∧
      items.chars ++ behind = t ++ rest ∧ EndsLevel behind ∧ '<' ∉ t ∧
      (({} : Reading).readAll before).Between (elements.reverse.map Element.start) ∧
      Reading.upTo markup.chars offset = (({} : Reading).readAll before).readAll t := by
  obtain ⟨before, behind, hchars, rfl, hends, hbetween⟩ := h.exists_before
  obtain ⟨more, hmore⟩ := exists_leadingText items
  obtain ⟨u, hu⟩ := takeBytes_isPrefix items.leadingText (offset - byteLength before)
  have hitems : items.chars ++ behind =
      takeBytes items.leadingText (offset - byteLength before) ++ (u ++ (more ++ behind)) := by
    rw [← List.append_assoc _ u, hu, hmore, List.append_assoc]
  refine ⟨before, _, u ++ (more ++ behind), behind, by rw [hchars, hitems], rfl, hitems, hends,
    fun hmem => leadingText_plain items (hu ▸ List.mem_append_left u hmem), hbetween, ?_⟩
  rw [hchars, hmore, List.append_assoc, Reading.upTo_append hstart hstop]

/-- A caret in the tag of an element, by the text `t` of the tag before it and the text `u` of the
tag behind it. -/
theorem Holds.exists_upTo_tag {body : TagBody} {ending : List Char} {length : Nat} {rest : Markup}
    (h : markup.Holds 0 place items elements) (hbegins : items.BeginsWith body ending length rest)
    (hstart : place < offset)
    (hstop : offset < place + byteLength ('<' :: (body.chars ++ ending))) :
    ∃ before t u behind, markup.chars = before ++ (items.chars ++ behind) ∧
      byteLength before = place ∧ EndsLevel behind ∧ '<' :: (body.chars ++ ending) = t ++ u ∧
      t ≠ [] ∧ u ≠ [] ∧
      (({} : Reading).readAll before).Between (elements.reverse.map Element.start) ∧
      Reading.upTo markup.chars offset = (({} : Reading).readAll before).readAll t := by
  obtain ⟨before, behind, hchars, rfl, hends, hbetween⟩ := h.exists_before
  obtain ⟨more, hmore⟩ := hbegins.exists_chars
  obtain ⟨u, hu⟩ := takeBytes_isPrefix ('<' :: (body.chars ++ ending)) (offset - byteLength before)
  refine ⟨before, _, u, behind, hchars, rfl, hends, hu.symm, ?_, ?_, hbetween, ?_⟩
  · have hlt : '<'.utf8Size ≤ offset - byteLength before := by
      have hsize : '<'.utf8Size = 1 := rfl
      omega
    rw [takeBytes, if_pos hlt]
    exact List.cons_ne_nil _ _
  · rintro rfl
    have hfloor := floorOffset_le ('<' :: (body.chars ++ ending)) (offset - byteLength before)
    rw [List.append_nil] at hu
    rw [← byteLength_takeBytes, hu] at hfloor
    omega
  · rw [hchars, hmore, List.append_assoc, Reading.upTo_append (Nat.le_of_lt hstart)
      (Nat.le_of_lt hstop)]

theorem Caret.openTags_upTo {around : Surroundings} (h : markup.Caret offset around) :
    (Reading.upTo markup.chars offset).openTags = around.openElements.map Element.start := by
  cases h with
  | content hholds hstart hstop =>
      obtain ⟨before, t, rest, behind, -, -, -, -, ht, hbetween, hread⟩ :=
        hholds.exists_upTo_content hstart hstop
      rw [hread]
      exact (hbetween.text ht).opened_eq
  | @tag _ _ _ _ elements body _ hholds hbegins hstart hstop =>
      obtain ⟨before, t, u, behind, -, rfl, -, hsplit, ht, hu, hbetween, hread⟩ :=
        hholds.exists_upTo_tag hbegins hstart hstop
      obtain ⟨_, _, -, -, htags⟩ := hbetween.inTag_of_split
        (Reading.hasRead_start.readAll before) body hbegins.ending_eq hsplit ht hu
      rw [hread, htags, Reading.readAll_pos]
      simp [Surroundings.openElements]

end Markup

/-! ### Plain parts of documents -/

private theorem Blanks.blank_nil : ∀ c ∈ ([] : List Char), isMarkupBlank c = true := by simp

private theorem Blanks.blank_space :
    ∀ c ∈ [' '], isMarkupBlank c = true := List.all_eq_true.mp (by decide)

def Blanks.none : Blanks := ⟨[], blank_nil⟩

def Blanks.space : Blanks := ⟨[' '], blank_space⟩

private theorem Blanks.space_ne : Blanks.space.chars ≠ [] := by decide

private theorem Name.letter_plain (i : Nat) :
    isNameChar (Char.ofNat (97 + i % 26)) = true ∧ Char.ofNat (97 + i % 26) ≠ '!' ∧
      Char.ofNat (97 + i % 26) ≠ '?' := by
  have hall : ∀ n < 26, isNameChar (Char.ofNat (97 + n)) = true ∧ Char.ofNat (97 + n) ≠ '!' ∧
      Char.ofNat (97 + n) ≠ '?' := by decide
  exact hall (i % 26) (Nat.mod_lt i (by decide))

private theorem Name.rest_nil : ∀ c ∈ ([] : List Char), isNameChar c = true := by simp

/-- The name that is one letter of the alphabet, `a` for 0. -/
def Name.letter (i : Nat) : Name := ⟨Char.ofNat (97 + i % 26), [], letter_plain i, rest_nil⟩

private theorem Attribute.double_ok : '"' = '"' ∨ '"' = '\x27' := .inl rfl

/-- An attribute such as ` k ="v"`. -/
def Attribute.plain (name : Name) (value : List Char) (h : '"' ∉ value) : Attribute where
  before := .space
  before_ne := Blanks.space_ne
  name := name
  afterName := .space
  beforeValue := .none
  quote := '"'
  quote_ok := double_ok
  value := value
  value_ok := h

end XamlAssist.Document
