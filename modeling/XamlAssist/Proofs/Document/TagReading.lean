import XamlAssist.Proofs.Document.Grammar
import XamlAssist.Proofs.Text.Reader

/-!
# Reading a well-formed tag

What reading does inside a tag, from its name over its attributes to the `>`. A reading *rests* in a
tag where the tag may end: in its name, between attributes, or right behind a value. From there it
reads blanks and whole attributes and rests again.
-/

namespace XamlAssist.Document

open Text

/-- The tag with some more of its characters read. -/
def Tag.extend (tag : Tag) (chars : List Char) : Tag :=
  { tag with seen := chars.reverse ++ tag.seen }

private theorem Tag.extend_cons (tag : Tag) (c : Char) (cs : List Char) :
    tag.extend (c :: cs) = (tag.extend [c]).extend cs := by
  simp [Tag.extend]

theorem Name.isNameChar_of_mem {name : Name} {c : Char} (hc : c ∈ name.chars) :
    isNameChar c = true := by
  rcases List.mem_cons.mp hc with rfl | hrest
  · exact name.first_plain.1
  · exact name.rest_plain c hrest

namespace Reading

@[simp] theorem readAll_nil (r : Reading) : r.readAll [] = r := rfl

@[simp] theorem readAll_cons (r : Reading) (c : Char) (cs : List Char) :
    r.readAll (c :: cs) = (r.step c).readAll cs := rfl

@[simp] theorem readAll_append (r : Reading) (s t : List Char) :
    r.readAll (s ++ t) = (r.readAll s).readAll t :=
  reader.readAll_append r s t

theorem step_pos (r : Reading) (c : Char) : (r.step c).pos = r.pos + c.utf8Size := rfl

theorem readAll_pos (r : Reading) (s : List Char) : (r.readAll s).pos = r.pos + byteLength s :=
  reader.pos_readAll r s

theorem readUpTo_cons (r : Reading) (offset : Nat) (c : Char) (rest : List Char) :
    r.readUpTo offset (c :: rest) =
      if r.pos + c.utf8Size ≤ offset then (r.step c).readUpTo offset rest else r := rfl

theorem readUpTo_eq_readAll (r : Reading) (offset : Nat) (text : List Char) :
    r.readUpTo offset text = r.readAll (takeBytes text (offset - r.pos)) :=
  reader.readUpTo_eq_readAll r offset text

theorem advance_eq_readAll (r : Reading) (text : List Char) (offset : Nat) :
    r.advance text offset = r.readAll (takeBytes (dropBytes text r.pos) (offset - r.pos)) :=
  reader.readUpTo_eq_readAll r offset (dropBytes text r.pos)

theorem readUpTo_append {r : Reading} {offset : Nat} (s t : List Char)
    (h : r.pos + byteLength s ≤ offset) :
    r.readUpTo offset (s ++ t) = (r.readAll s).readUpTo offset t :=
  reader.readUpTo_append_of_le t h

@[simp] theorem readUpTo_pos (r : Reading) (text : List Char) : r.readUpTo r.pos text = r := by
  cases text with
  | nil => rfl
  | cons c rest =>
      have hc := c.utf8Size_pos
      rw [readUpTo_cons, if_neg (by omega)]

theorem upTo_eq_readAll (text : List Char) (offset : Nat) :
    upTo text offset = ({} : Reading).readAll (takeBytes text offset) :=
  reader.advance_eq_readAll rfl text offset

theorem upTo_eq_readUpTo (text : List Char) (offset : Nat) :
    upTo text offset = ({} : Reading).readUpTo offset text := by
  rw [upTo_eq_readAll, readUpTo_eq_readAll, Nat.sub_zero]

theorem upTo_pos (text : List Char) (offset : Nat) :
    (upTo text offset).pos = floorOffset text offset :=
  reader.pos_advance rfl text offset

/-! ### Runs of characters at one place of a tag -/

private theorem readAll_of_stays {spot : Spot} {opened : List Nat} {P : Char → Prop}
    (hstay : ∀ c, P c → ∀ pos tag, step ⟨pos, .inTag tag spot, opened⟩ c =
      ⟨pos + c.utf8Size, .inTag (tag.extend [c]) spot, opened⟩)
    (s : List Char) (hs : ∀ c ∈ s, P c) (pos : Nat) (tag : Tag) :
    readAll ⟨pos, .inTag tag spot, opened⟩ s =
      ⟨pos + byteLength s, .inTag (tag.extend s) spot, opened⟩ := by
  induction s generalizing pos tag with
  | nil => rfl
  | cons c s ih =>
      have hrest : ∀ d ∈ s, P d := fun d hd => hs d (List.mem_cons_of_mem c hd)
      rw [readAll_cons, hstay c (hs c List.mem_cons_self), ih hrest, byteLength_cons,
        Tag.extend_cons tag c s, Nat.add_assoc]

theorem ne_of_isNameChar {c : Char} (h : isNameChar c = true) :
    isMarkupBlank c = false ∧ c ≠ '<' ∧ c ≠ '>' ∧ c ≠ '/' ∧ c ≠ '=' ∧ c ≠ '"' ∧ c ≠ '\x27' := by
  simpa [isNameChar, and_assoc] using h

theorem ne_of_isMarkupBlank {c : Char} (h : isMarkupBlank c = true) :
    c ≠ '<' ∧ c ≠ '>' ∧ c ≠ '/' ∧ c ≠ '=' ∧ c ≠ '"' ∧ c ≠ '\x27' ∧ c ≠ '-' ∧ c ≠ '[' := by
  simp only [isMarkupBlank, Bool.or_eq_true, beq_iff_eq] at h
  rcases h with ((rfl | rfl) | rfl) | rfl <;> decide

private theorem readAll_gap_blanks (bs : Blanks) (pos : Nat) (tag : Tag) (opened : List Nat) :
    readAll ⟨pos, .inTag tag .gap, opened⟩ bs.chars =
      ⟨pos + byteLength bs.chars, .inTag (tag.extend bs.chars) .gap, opened⟩ := by
  refine readAll_of_stays (P := fun c => isMarkupBlank c = true) ?_ bs.chars bs.blank pos tag
  intro c hc pos tag
  obtain ⟨hlt, hgt, -⟩ := ne_of_isMarkupBlank hc
  simp [step, react, readSpot, moveTo, Tag.extend, hlt, hgt, hc]

private theorem readAll_attributeName (name : Name) (pos : Nat) (tag : Tag) (opened : List Nat) :
    readAll ⟨pos, .inTag tag .gap, opened⟩ name.chars =
      ⟨pos + byteLength name.chars, .inTag (tag.extend name.chars) (.attributeName pos none),
        opened⟩ := by
  have hfirst : step ⟨pos, .inTag tag .gap, opened⟩ name.first =
      ⟨pos + name.first.utf8Size, .inTag (tag.extend [name.first]) (.attributeName pos none),
        opened⟩ := by
    obtain ⟨hblank, hlt, hgt, hslash, -⟩ := ne_of_isNameChar name.first_plain.1
    simp [step, react, readSpot, moveTo, Tag.extend, hlt, hgt, hslash, hblank]
  have hstay : ∀ c, isNameChar c = true → ∀ place tag,
      step ⟨place, .inTag tag (.attributeName pos none), opened⟩ c =
        ⟨place + c.utf8Size, .inTag (tag.extend [c]) (.attributeName pos none), opened⟩ := by
    intro c hc place tag
    obtain ⟨hblank, hlt, hgt, hslash, heq, -⟩ := ne_of_isNameChar hc
    simp [step, react, readSpot, moveTo, Tag.extend, hlt, hgt, hslash, heq, hblank]
  rw [Name.chars, readAll_cons, hfirst, readAll_of_stays hstay name.rest name.rest_plain,
    byteLength_cons, ← Tag.extend_cons, Nat.add_assoc]

private theorem readAll_afterName_blanks (bs : Blanks) (pos start : Nat) (tag : Tag)
    (opened : List Nat) :
    ∃ stop : Option Nat,
      readAll ⟨pos, .inTag tag (.attributeName start none), opened⟩ bs.chars =
        ⟨pos + byteLength bs.chars, .inTag (tag.extend bs.chars) (.attributeName start stop),
          opened⟩ ∧
      stop.getD (pos + byteLength bs.chars) = pos := by
  obtain ⟨chars, hblank⟩ := bs
  cases chars with
  | nil => exact ⟨none, rfl, rfl⟩
  | cons c cs =>
      have hstay : ∀ d, isMarkupBlank d = true → ∀ (stop : Option Nat) (place : Nat) (tag : Tag),
          step ⟨place, .inTag tag (.attributeName start stop), opened⟩ d =
            ⟨place + d.utf8Size, .inTag (tag.extend [d])
              (.attributeName start (some (stop.getD place))), opened⟩ := by
        intro d hd stop place tag
        obtain ⟨hlt, hgt, hslash, heq, -⟩ := ne_of_isMarkupBlank hd
        simp [step, react, readSpot, moveTo, Tag.extend, hlt, hgt, hslash, heq, hd]
      have hfirst := hstay c (hblank c List.mem_cons_self) none pos tag
      have hrest := readAll_of_stays (fun d hd => hstay d hd (some pos)) cs
        (fun d hd => hblank d (List.mem_cons_of_mem c hd)) (pos + c.utf8Size) (tag.extend [c])
      refine ⟨some pos, ?_, rfl⟩
      rw [readAll_cons, hfirst, Option.getD_none, hrest, byteLength_cons, ← Tag.extend_cons,
        Nat.add_assoc]

private theorem readAll_beforeValue_blanks (bs : Blanks) (name : Bounds) (pos : Nat) (tag : Tag)
    (opened : List Nat) :
    readAll ⟨pos, .inTag tag (.beforeValue name), opened⟩ bs.chars =
      ⟨pos + byteLength bs.chars, .inTag (tag.extend bs.chars) (.beforeValue name), opened⟩ := by
  refine readAll_of_stays (P := fun c => isMarkupBlank c = true) ?_ bs.chars bs.blank pos tag
  intro c hc pos tag
  obtain ⟨hlt, hgt, -, -, hdouble, hsingle, -⟩ := ne_of_isMarkupBlank hc
  simp [step, react, readSpot, moveTo, Tag.extend, hlt, hgt, hdouble, hsingle, hc]

private theorem readAll_quoted {quote : Char} {value : List Char} (hvalue : quote ∉ value)
    (name : Bounds) (start pos : Nat) (tag : Tag) (opened : List Nat) :
    readAll ⟨pos, .inTag tag (.value name (some quote) start), opened⟩ value =
      ⟨pos + byteLength value, .inTag (tag.extend value) (.value name (some quote) start),
        opened⟩ := by
  refine readAll_of_stays (P := fun c => c ≠ quote) ?_ value ?_ pos tag
  · intro c hc pos tag
    simp [step, react, readSpot, moveTo, Tag.extend, hc]
  · intro c hc heq
    exact hvalue (heq ▸ hc)

/-- Between attributes, an attribute from its name on is read to the end of its value, and the
bounds of its name and of its value are kept. -/
theorem readAll_attribute (attr : Attribute) (pos : Nat) (tag : Tag) (opened : List Nat) :
    let text := attr.name.chars ++ (attr.afterName.chars ++ attr.assigned)
    let nameStop := pos + byteLength attr.name.chars
    let valueStart := nameStop + byteLength attr.afterName.chars + 1 +
      byteLength attr.beforeValue.chars + 1
    readAll ⟨pos, .inTag tag .gap, opened⟩ text =
      ⟨pos + byteLength text,
        .inTag (tag.extend text)
          (.afterValue ⟨pos, nameStop⟩ ⟨valueStart, valueStart + byteLength attr.value⟩),
        opened⟩ := by
  intro text nameStop valueStart
  obtain ⟨stop, hafter, hstop⟩ := readAll_afterName_blanks attr.afterName nameStop pos
    (tag.extend attr.name.chars) opened
  have hquote : attr.quote.utf8Size = 1 := by
    rcases attr.quote_ok with h | h <;> rw [h] <;> rfl
  have hequals : ∀ (place : Nat) (tag : Tag),
      step ⟨place, .inTag tag (.attributeName pos stop), opened⟩ '=' =
        ⟨place + 1, .inTag (tag.extend ['=']) (.beforeValue ⟨pos, stop.getD place⟩), opened⟩ :=
    fun place tag => rfl
  have hopen : ∀ (name : Bounds) (place : Nat) (tag : Tag),
      step ⟨place, .inTag tag (.beforeValue name), opened⟩ attr.quote =
        ⟨place + 1, .inTag (tag.extend [attr.quote]) (.value name (some attr.quote) (place + 1)),
          opened⟩ := by
    intro name place tag
    rcases attr.quote_ok with h | h <;> rw [h] <;> rfl
  have hclose : ∀ (name : Bounds) (start place : Nat) (tag : Tag),
      step ⟨place, .inTag tag (.value name (some attr.quote) start), opened⟩ attr.quote =
        ⟨place + 1, .inTag (tag.extend [attr.quote]) (.afterValue name ⟨start, place⟩),
          opened⟩ := by
    intro name start place tag
    simp [step, react, readSpot, moveTo, Tag.extend, hquote]
  simp only [text, Attribute.assigned, readAll_append, readAll_cons, readAll_nil,
    readAll_attributeName]
  rw [hafter, hequals, readAll_beforeValue_blanks, hopen, readAll_quoted attr.value_ok, hclose,
    hstop]
  have hsize : '='.utf8Size = 1 := rfl
  simp [Tag.extend, valueStart, nameStop, hquote, hsize]
  omega

/-! ### Places where a tag may end -/

/-- The places of a tag at which it may end or go on with blanks. -/
inductive IsRest : Spot → Prop
  | name : IsRest .name
  | gap : IsRest .gap
  | afterValue (name value : Bounds) : IsRest (.afterValue name value)

/-- The places of a tag without quoted values. -/
inductive IsLoose : Spot → Prop
  | gap : IsLoose .gap
  | attributeName (start : Nat) (stop : Option Nat) : IsLoose (.attributeName start stop)

/-- Every place but those inside a quoted value. -/
def IsUnquoted : Spot → Prop
  | .value _ (some _) _ => False
  | _ => True

theorem IsRest.isUnquoted {spot : Spot} (h : IsRest spot) : IsUnquoted spot := by
  cases h <;> trivial

theorem IsLoose.isUnquoted {spot : Spot} (h : IsLoose spot) : IsUnquoted spot := by
  cases h <;> trivial

/-- The number of open tags that a tag takes away when it ends. -/
def leaving (closing : Bool) (seen : List Char) : Nat :=
  if closing then 2
  else if seen.head? == some '/' || (seen.getLast? == some '?' || seen.getLast? == some '!') then 1
  else 0

/-- The reading is behind the first character of the name of a tag, at a place in the class `P`. Of
the tag it tells what has been `seen` and whether it is `closing`. -/
structure InTag (r : Reading) (P : Spot → Prop) (opened : List Nat) (closing : Bool)
    (seen : List Char) : Prop where
  opened_eq : r.openTags = opened
  exists_spot : ∃ tag spot, r.phase = .inTag tag spot ∧ P spot ∧ tag.closing = closing ∧
    tag.seen = seen ∧ tag.nameStart < r.pos

theorem InTag.mono {r : Reading} {P Q : Spot → Prop} {opened : List Nat} {closing : Bool}
    {seen : List Char} (h : r.InTag P opened closing seen) (hPQ : ∀ {spot}, P spot → Q spot) :
    r.InTag Q opened closing seen := by
  obtain ⟨hopened, tag, spot, hphase, hspot, hrest⟩ := h
  exact ⟨hopened, tag, spot, hphase, hPQ hspot, hrest⟩

variable {r : Reading} {opened : List Nat} {closing : Bool} {seen : List Char}

theorem InTag.step_blank (h : r.InTag IsRest opened closing seen) {c : Char}
    (hc : isMarkupBlank c = true) :
    ∃ tag, r.step c = ⟨r.pos + c.utf8Size, .inTag tag .gap, opened⟩ ∧ tag.closing = closing ∧
      tag.seen = c :: seen ∧ tag.nameStart < r.pos := by
  obtain ⟨hopened, tag, spot, hphase, hspot, hclosing, hseen, hstart⟩ := h
  obtain ⟨hlt, hgt, hslash, -, -, -, hdash, hbracket⟩ := ne_of_isMarkupBlank hc
  cases hspot with
  | name =>
      refine ⟨{ tag.extend [c] with nameStop := some r.pos }, ?_, hclosing,
        by simp [Tag.extend, hseen], hstart⟩
      simp [step, react, hphase, readSpot, readName, moveTo, Tag.extend, commentOpener, cdataOpener,
        hdash, hbracket, hslash, hgt, hlt, hc, hopened]
  | gap =>
      refine ⟨tag.extend [c], ?_, hclosing, by simp [Tag.extend, hseen], hstart⟩
      simp [step, react, hphase, readSpot, moveTo, Tag.extend, hgt, hlt, hc, hopened]
  | afterValue name value =>
      refine ⟨tag.extend [c], ?_, hclosing, by simp [Tag.extend, hseen], hstart⟩
      simp [step, react, hphase, readSpot, moveTo, Tag.extend, hgt, hc, hopened]

theorem InTag.readAll_blanks (h : r.InTag IsRest opened closing seen) {bs : Blanks}
    (hbs : bs.chars ≠ []) :
    ∃ tag, r.readAll bs.chars = ⟨r.pos + byteLength bs.chars, .inTag tag .gap, opened⟩ ∧
      tag.closing = closing ∧ tag.seen = bs.chars.reverse ++ seen ∧ tag.nameStart < r.pos := by
  obtain ⟨chars, hblank⟩ := bs
  cases chars with
  | nil => exact absurd rfl hbs
  | cons c cs =>
      obtain ⟨tag, hstep, hclosing, hseen, hstart⟩ := h.step_blank (hblank c List.mem_cons_self)
      have hrest := readAll_gap_blanks ⟨cs, fun d hd => hblank d (List.mem_cons_of_mem c hd)⟩
        (r.pos + c.utf8Size) tag opened
      refine ⟨tag.extend cs, ?_, hclosing, by simp [Tag.extend, hseen], hstart⟩
      rw [readAll_cons, hstep, hrest, byteLength_cons, Nat.add_assoc]

theorem InTag.blanks (h : r.InTag IsRest opened closing seen) (bs : Blanks) :
    (r.readAll bs.chars).InTag IsRest opened closing (bs.chars.reverse ++ seen) := by
  by_cases hbs : bs.chars = []
  · simpa [hbs] using h
  · obtain ⟨tag, hread, hclosing, hseen, hstart⟩ := h.readAll_blanks hbs
    rw [hread]
    exact ⟨rfl, tag, .gap, rfl, .gap, hclosing, hseen, Nat.lt_add_right _ hstart⟩

theorem InTag.attribute (h : r.InTag IsRest opened closing seen) (attr : Attribute) :
    (r.readAll attr.chars).InTag IsRest opened closing (attr.chars.reverse ++ seen) := by
  obtain ⟨tag, hread, hclosing, hseen, hstart⟩ := h.readAll_blanks attr.before_ne
  rw [Attribute.chars, readAll_append, hread, readAll_attribute]
  refine ⟨rfl, _, _, rfl, .afterValue _ _, hclosing, ?_, ?_⟩
  · simp [Tag.extend, hseen]
  · exact Nat.lt_add_right _ (Nat.lt_add_right _ hstart)

theorem InTag.attributes (h : r.InTag IsRest opened closing seen) (attrs : List Attribute) :
    (r.readAll (attrs.flatMap Attribute.chars)).InTag IsRest opened closing
      ((attrs.flatMap Attribute.chars).reverse ++ seen) := by
  induction attrs generalizing r seen with
  | nil => simpa using h
  | cons attr attrs ih =>
      rw [List.flatMap_cons, readAll_append, List.reverse_append, List.append_assoc]
      exact ih (h.attribute attr)

theorem InTag.slash (h : r.InTag IsRest opened false seen) :
    (r.step '/').InTag IsRest opened false ('/' :: seen) := by
  obtain ⟨hopened, tag, spot, hphase, hspot, hclosing, hseen, hstart⟩ := h
  have hpos : r.pos ≠ tag.nameStart := by omega
  have hlt : tag.nameStart < r.pos + '/'.utf8Size := by omega
  cases hspot with
  | name =>
      have hstep : r.step '/' = ⟨r.pos + '/'.utf8Size,
          .inTag { tag.extend ['/'] with nameStop := some r.pos } .gap, opened⟩ := by
        simp [step, react, hphase, readSpot, readName, moveTo, Tag.extend, commentOpener,
          cdataOpener, hpos, hopened]
      rw [hstep]
      exact ⟨rfl, _, _, rfl, .gap, hclosing, by simp [Tag.extend, hseen], hlt⟩
  | gap =>
      have hstep : r.step '/' =
          ⟨r.pos + '/'.utf8Size, .inTag (tag.extend ['/']) .gap, opened⟩ := by
        simp [step, react, hphase, readSpot, moveTo, Tag.extend, hopened]
      rw [hstep]
      exact ⟨rfl, _, _, rfl, .gap, hclosing, by simp [Tag.extend, hseen], hlt⟩
  | afterValue name value =>
      have hstep : r.step '/' =
          ⟨r.pos + '/'.utf8Size, .inTag (tag.extend ['/']) .gap, opened⟩ := by
        simp [step, react, hphase, readSpot, moveTo, Tag.extend, hopened]
      rw [hstep]
      exact ⟨rfl, _, _, rfl, .gap, hclosing, by simp [Tag.extend, hseen], hlt⟩

theorem InTag.question (h : r.InTag IsRest opened closing seen) :
    (r.step '?').InTag IsUnquoted opened closing ('?' :: seen) := by
  obtain ⟨hopened, tag, spot, hphase, hspot, hclosing, hseen, hstart⟩ := h
  have hlt : tag.nameStart < r.pos + '?'.utf8Size := by omega
  have hnext : ∃ spot', r.step '?' =
      ⟨r.pos + '?'.utf8Size, .inTag (tag.extend ['?']) spot', opened⟩ ∧ IsUnquoted spot' := by
    cases hspot with
    | name =>
        refine ⟨.name, ?_, trivial⟩
        simp [step, react, hphase, readSpot, readName, moveTo, Tag.extend, commentOpener,
          cdataOpener, isMarkupBlank, hopened]
    | gap =>
        refine ⟨.attributeName r.pos none, ?_, trivial⟩
        simp [step, react, hphase, readSpot, moveTo, Tag.extend, isMarkupBlank, hopened]
    | afterValue name value =>
        refine ⟨.attributeName r.pos none, ?_, trivial⟩
        simp [step, react, hphase, readSpot, moveTo, Tag.extend, isMarkupBlank, hopened]
  obtain ⟨spot', hstep, hspot'⟩ := hnext
  rw [hstep]
  exact ⟨rfl, _, _, rfl, hspot', hclosing, by simp [Tag.extend, hseen], hlt⟩

theorem InTag.declarationChars (h : r.InTag IsLoose opened closing seen) (s : List Char)
    (hs : ∀ c ∈ s, isDeclarationChar c = true) :
    (r.readAll s).InTag IsLoose opened closing (s.reverse ++ seen) := by
  induction s generalizing r seen with
  | nil => exact h
  | cons c s ih =>
      have hc : c ≠ '<' ∧ c ≠ '>' ∧ c ≠ '=' ∧ c ≠ '/' := by
        simpa [isDeclarationChar, and_assoc] using hs c List.mem_cons_self
      obtain ⟨hlt, hgt, heq, hslash⟩ := hc
      obtain ⟨hopened, tag, spot, hphase, hspot, hclosing, hseen, hstart⟩ := h
      have hnext : ∃ spot', r.step c =
          ⟨r.pos + c.utf8Size, .inTag (tag.extend [c]) spot', opened⟩ ∧ IsLoose spot' := by
        cases hspot with
        | gap =>
            by_cases hblank : isMarkupBlank c = true
            · refine ⟨.gap, ?_, .gap⟩
              simp [step, react, hphase, readSpot, moveTo, Tag.extend, hlt, hgt, hblank, hopened]
            · refine ⟨.attributeName r.pos none, ?_, .attributeName _ _⟩
              simp [step, react, hphase, readSpot, moveTo, Tag.extend, hlt, hgt, hslash, hblank,
                hopened]
        | attributeName start stop =>
            by_cases hblank : isMarkupBlank c = true
            · refine ⟨.attributeName start (some (stop.getD r.pos)), ?_, .attributeName _ _⟩
              simp [step, react, hphase, readSpot, moveTo, Tag.extend, hlt, hgt, heq, hslash,
                hblank, hopened]
            · cases stop with
              | none =>
                  refine ⟨.attributeName start none, ?_, .attributeName _ _⟩
                  simp [step, react, hphase, readSpot, moveTo, Tag.extend, hlt, hgt, heq, hslash,
                    hblank, hopened]
              | some stop =>
                  refine ⟨.attributeName r.pos none, ?_, .attributeName _ _⟩
                  simp [step, react, hphase, readSpot, moveTo, Tag.extend, hlt, hgt, heq, hslash,
                    hblank, hopened]
      obtain ⟨spot', hstep, hspot'⟩ := hnext
      have hrest : (r.step c).InTag IsLoose opened closing (c :: seen) := by
        rw [hstep]
        exact ⟨rfl, _, _, rfl, hspot', hclosing, by simp [Tag.extend, hseen],
          Nat.lt_add_right c.utf8Size hstart⟩
      rw [readAll_cons, List.reverse_cons, List.append_assoc]
      exact ih hrest fun d hd => hs d (List.mem_cons_of_mem c hd)

theorem InTag.close (h : r.InTag IsUnquoted opened closing seen) :
    (r.step '>').phase.isContent = true ∧
      (r.step '>').openTags = opened.drop (leaving closing seen) := by
  obtain ⟨rfl, tag, spot, hphase, hspot, rfl, rfl, -⟩ := h
  have hstep : ∃ last : Tag, last.closing = tag.closing ∧ last.seen = tag.seen ∧
      r.react '>' = r.closeTag last := by
    cases spot with
    | name =>
        refine ⟨{ tag with nameStop := some r.pos }, rfl, rfl, ?_⟩
        simp [react, hphase, readSpot, readName, commentOpener, cdataOpener]
    | value name quote start =>
        cases quote with
        | none =>
            refine ⟨tag, rfl, rfl, ?_⟩
            simp [react, hphase, readSpot, isMarkupBlank]
        | some quote => exact absurd hspot id
    | gap => exact ⟨tag, rfl, rfl, by simp [react, hphase, readSpot]⟩
    | attributeName start stop => exact ⟨tag, rfl, rfl, by simp [react, hphase, readSpot]⟩
    | beforeValue name => exact ⟨tag, rfl, rfl, by simp [react, hphase, readSpot]⟩
    | afterValue name value => exact ⟨tag, rfl, rfl, by simp [react, hphase, readSpot]⟩
  obtain ⟨last, hclosing, hseen, hreact⟩ := hstep
  simp only [step, hreact, closeTag, leaving, ← hclosing, ← hseen]
  exact ⟨rfl, trivial⟩

/-! ### From the `<` on -/

/-- The characters of a name leave a tag in its name, as long as no comment and no character data
begins. -/
theorem readAll_tagName (s : List Char) (hs : ∀ c ∈ s, isNameChar c = true) (pos : Nat) (tag : Tag)
    (opened : List Nat)
    (hfree : ∀ t u, s = t ++ u → t ≠ [] →
      t.reverse ++ tag.seen ≠ commentOpener ∧ t.reverse ++ tag.seen ≠ cdataOpener) :
    readAll ⟨pos, .inTag tag .name, opened⟩ s =
      ⟨pos + byteLength s, .inTag (tag.extend s) .name, opened⟩ := by
  induction s generalizing pos tag with
  | nil => rfl
  | cons c s ih =>
      obtain ⟨hblank, hlt, hgt, hslash, -⟩ := ne_of_isNameChar (hs c List.mem_cons_self)
      obtain ⟨hcomment, hcdata⟩ := hfree [c] s rfl (by simp)
      have hstep : step ⟨pos, .inTag tag .name, opened⟩ c =
          ⟨pos + c.utf8Size, .inTag (tag.extend [c]) .name, opened⟩ := by
        rw [List.reverse_singleton, List.singleton_append] at hcomment hcdata
        simp [step, react, readSpot, readName, moveTo, Tag.extend, hcomment, hcdata, hblank, hlt,
          hgt, hslash]
      rw [readAll_cons, hstep, ih (fun d hd => hs d (List.mem_cons_of_mem c hd)), byteLength_cons,
        ← Tag.extend_cons, Nat.add_assoc]
      intro t u htu ht
      have hlonger := hfree (c :: t) u (by rw [htu]; rfl) (by simp)
      simpa [Tag.extend] using hlonger

theorem opener_free (s seen : List Char) (hfirst : (seen.getLast?.or s.head?) ≠ some '!') :
    ∀ t u, s = t ++ u → t ≠ [] →
      t.reverse ++ seen ≠ commentOpener ∧ t.reverse ++ seen ≠ cdataOpener := by
  intro t u hs ht
  have hhead : t.head? = s.head? := by
    cases t with
    | nil => exact absurd rfl ht
    | cons c t => rw [hs]; rfl
  have hlast : (t.reverse ++ seen).getLast? = seen.getLast?.or s.head? := by
    rw [List.getLast?_append, List.getLast?_reverse, hhead]
  constructor <;> intro h <;> rw [← hlast, h] at hfirst <;> exact hfirst rfl

theorem step_open {r : Reading} (h : r.phase.isContent = true) :
    r.step '<' =
      ⟨r.pos + 1, .inTag { start := r.pos, nameStart := r.pos + 1 } .name,
        r.pos :: r.openTags⟩ := by
  obtain ⟨pos, phase, opened⟩ := r
  cases phase <;> simp_all [Phase.isContent, step, react, openTag]
  rfl

theorem inTag_of_nameChars {r : Reading} (h : r.phase.isContent = true) {s : List Char}
    (hs : ∀ c ∈ s, isNameChar c = true) (hne : s ≠ [])
    (hfree : ∀ t u, s = t ++ u → t ≠ [] → t.reverse ≠ commentOpener ∧ t.reverse ≠ cdataOpener) :
    ((r.step '<').readAll s).InTag IsRest (r.pos :: r.openTags) false s.reverse := by
  have hpos : 0 < byteLength s := by
    obtain ⟨c, cs, rfl⟩ := List.exists_cons_of_ne_nil hne
    have hc := c.utf8Size_pos
    rw [byteLength_cons]
    omega
  rw [step_open h, readAll_tagName s hs]
  · refine ⟨rfl, _, _, rfl, .name, rfl, by simp [Tag.extend], ?_⟩
    simp only [Tag.extend]
    omega
  · simpa using hfree

/-- A tag with a body, which may have a question mark before its name. -/
theorem inTag_of_body {r : Reading} (h : r.phase.isContent = true) (body : TagBody)
    (lead : List Char) (hlead : lead = [] ∨ lead = ['?']) :
    ((r.step '<').readAll (lead ++ body.chars)).InTag IsRest (r.pos :: r.openTags) false
      (lead ++ body.chars).reverse := by
  have hname : ((r.step '<').readAll (lead ++ body.name.chars)).InTag IsRest
      (r.pos :: r.openTags) false (lead ++ body.name.chars).reverse := by
    apply inTag_of_nameChars h
    · intro c hc
      rcases List.mem_append.mp hc with hc | hc
      · rcases hlead with rfl | rfl
        · exact absurd hc (List.not_mem_nil)
        · rw [List.mem_singleton.mp hc]; rfl
      · exact Name.isNameChar_of_mem hc
    · simp [Name.chars]
    · have hfirst : (([] : List Char).getLast?.or (lead ++ body.name.chars).head?) ≠ some '!' := by
        rcases hlead with rfl | rfl
        · simpa [Name.chars] using body.name.first_plain.2.1
        · simp
      simpa using opener_free (lead ++ body.name.chars) [] hfirst
  have hbody := (hname.attributes body.attributes).blanks body.trailing
  simpa [TagBody.chars] using hbody

end Reading

end XamlAssist.Document
