import XamlAssist.Document.Context
import XamlAssist.Proofs.Document.Carets

/-!
# Attributes of the elements around a caret

The search for an attribute reads the tag of an open element from its `<` on. In a well-formed
document it passes over the name, the blanks and every attribute of another name, whatever stands in
their values, and it ends at the first attribute of the name, or at the `>` of the tag. So the
lookup gives the value that the nearest open element has.
-/

namespace XamlAssist.Document

open Text

/-- The value of the first attribute of the name. -/
def TagBody.attribute? (body : TagBody) (name : String) : Option String :=
  (body.attributes.find? fun attr => String.ofList attr.name.chars = name).map fun attr =>
    String.ofList attr.value

/-- The offset of the attribute that a place is in, up to the end of its value. -/
def Spot.attribute? : Spot → Option Nat
  | .attributeName start _ => some start
  | .beforeValue bounds => some bounds.start
  | .value bounds _ _ => some bounds.start
  | _ => none

private theorem Spot.Leads.attribute? {pos start : Nat} {c : Char} {spot next : Spot}
    (h : spot.Leads pos c next) (hnext : next.attribute? = some start) (hold : start ≠ pos) :
    spot.attribute? = some start := by
  cases h with
  | name => exact hnext
  | gap => exact absurd hnext (by simp [Spot.attribute?])
  | startAttribute => exact absurd (Option.some.inj hnext).symm hold
  | attributeName => exact hnext
  | equals => exact hnext
  | beforeValue => exact hnext
  | startValue => exact hnext
  | value => exact hnext
  | endValue => exact absurd hnext (by simp [Spot.attribute?])

private theorem Spot.Leads.eq_value {pos : Nat} {c : Char} {spot : Spot} {bounds value : Bounds}
    (h : spot.Leads pos c (.afterValue bounds value)) :
    spot = .value bounds (some c) value.start := by
  cases h
  rfl

namespace Reading

variable {r : Reading} {text s t : List Char} {start : Nat} {name : String}

/-- A reading inside an attribute that began before an earlier place was inside it there. -/
theorem attribute?_of_readAll {tag : Tag} {spot : Spot}
    (h : (r.readAll s).phase = .inTag tag spot) (hattr : spot.attribute? = some start)
    (hold : tag.start < r.pos) (hpast : start < r.pos) :
    ∃ before place, r.phase = .inTag before place ∧ before.start = tag.start ∧
      place.attribute? = some start := by
  induction s generalizing r with
  | nil => exact ⟨tag, spot, h, rfl, hattr⟩
  | cons c s ih =>
      obtain ⟨next, nextSpot, hnext, hstart, hsame⟩ :=
        ih h (Nat.lt_add_right _ hold) (Nat.lt_add_right _ hpast)
      obtain ⟨before, place, hbefore, hstart', hleads, -⟩ := inTag_of_step hnext (by omega)
      exact ⟨before, place, hbefore, hstart'.trans hstart, hleads.attribute? hsame (by omega)⟩

/-! ### Stretches that the search passes over -/

/-- From `r` on, the search for the attribute `name` reads through `s` and ends at no character of
it. -/
def Passes (text : List Char) (name : String) (r : Reading) (s : List Char) : Prop :=
  ∀ t c u, s = t ++ c :: u →
    closesValueOf (r.readAll t) ((r.readAll t).step c) text name = false ∧
      ((r.readAll t).step c).phase.isInsideTag = true

theorem Passes.append (hs : r.Passes text name s) (ht : (r.readAll s).Passes text name t) :
    r.Passes text name (s ++ t) := by
  intro v c u hsplit
  rcases List.append_eq_append_iff.mp hsplit with ⟨w, rfl, hw⟩ | ⟨w, rfl, hw⟩
  · rw [readAll_append]
    exact ht w c u hw
  · cases w with
    | nil =>
        rw [List.append_nil] at ht
        exact ht [] c u hw.symm
    | cons d w =>
        obtain ⟨rfl, -⟩ := List.cons.inj hw
        exact hs v c w rfl

private theorem seekAttribute_append (h : r.Passes text name s) (rest : List Char) :
    seekAttribute text start name r (s ++ rest) =
      seekAttribute text start name (r.readAll s) rest := by
  induction s generalizing r with
  | nil => rfl
  | cons c s ih =>
      obtain ⟨hcloses, hinside⟩ := h [] c s rfl
      have hcontent := isContent_of_isInsideTag hinside
      have hrest : (r.step c).Passes text name s := fun t d u hsplit =>
        h (c :: t) d u (by rw [hsplit]; rfl)
      rw [List.cons_append, seekAttribute, readAll_cons, ← ih hrest]
      rw [readAll_nil] at hcloses hcontent
      simp [hcloses, hcontent]

/-- The reading is at a place of a tag where the tag may end. -/
def AtRest (r : Reading) : Prop := ∃ tag spot, r.phase = .inTag tag spot ∧ IsRest spot

theorem AtRest.isInsideTag (h : r.AtRest) : r.phase.isInsideTag = true := by
  obtain ⟨tag, spot, hphase, -⟩ := h
  rw [hphase]
  rfl

theorem AtRest.closesValueOf (h : r.AtRest) (next : Reading) :
    closesValueOf r next text name = false := by
  obtain ⟨tag, spot, hphase, hspot⟩ := h
  cases hspot <;> simp [Reading.closesValueOf, hphase]

private theorem passes_of_atRest (h : ∀ t, t <+: s → (r.readAll t).AtRest) :
    r.Passes text name s := by
  rintro t c u rfl
  have hafter := h (t ++ [c]) ⟨u, by simp⟩
  rw [readAll_append] at hafter
  exact ⟨(h t (List.prefix_append _ _)).closesValueOf _, hafter.isInsideTag⟩

section InTag

variable {opened : List Nat} {closing : Bool} {seen : List Char}

private theorem InTag.atRest (h : r.InTag IsRest opened closing seen) : r.AtRest := by
  obtain ⟨-, tag, spot, hphase, hspot, -⟩ := h
  exact ⟨tag, spot, hphase, hspot⟩

private theorem InTag.passes_blanks (h : r.InTag IsRest opened closing seen) (bs : Blanks) :
    r.Passes text name bs.chars :=
  passes_of_atRest fun t ht =>
    (h.blanks ⟨t, fun c hc => bs.blank c (ht.subset hc)⟩).atRest

private theorem InTag.passes_slash (h : r.InTag IsRest opened false seen) :
    r.Passes text name ['/'] := by
  refine passes_of_atRest fun t ht => ?_
  rcases List.prefix_concat_iff.mp (show t <+: [] ++ ['/'] from ht) with rfl | ht
  · exact h.slash.atRest
  · rw [List.prefix_nil.mp ht]
    exact h.atRest

end InTag

private theorem passes_tagName (h : r.phase.isContent = true) (tagName : Name) :
    r.Passes text name ('<' :: tagName.chars) := by
  have hopen : r.Passes text name ['<'] := by
    intro t c u hsplit
    obtain ⟨rfl, rfl⟩ : t = [] ∧ c = '<' := by
      cases t with
      | nil => exact ⟨rfl, (List.cons.inj hsplit).1.symm⟩
      | cons d t => exact absurd (List.cons.inj hsplit).2 (by simp)
    rw [readAll_nil, step_open h]
    refine ⟨?_, rfl⟩
    cases hphase : r.phase <;> simp [closesValueOf, hphase]
  have hfirst : tagName.first ≠ '!' := tagName.first_plain.2.1
  have hname : (r.step '<').Passes text name tagName.chars := by
    refine passes_of_atRest fun t ht => ?_
    by_cases hne : t = []
    · rw [hne, readAll_nil, step_open h]
      exact ⟨_, _, rfl, .name⟩
    · have hplain : ∀ c ∈ t, isNameChar c = true := fun c hc =>
        Name.isNameChar_of_mem (ht.subset hc)
      refine (inTag_of_nameChars h hplain hne ?_).atRest
      have hhead : t.head? = some tagName.first := by
        obtain ⟨u, hu⟩ := ht
        cases t with
        | nil => exact absurd rfl hne
        | cons c t => exact congrArg some (List.cons.inj hu).1
      simpa using opener_free t [] (by simpa [hhead] using hfirst)
  exact hopen.append hname

/-! ### Attributes -/

end Reading

/-- The attribute from its name up to its closing quote. -/
def Attribute.unfinished (attr : Attribute) : List Char :=
  attr.name.chars ++
    (attr.afterName.chars ++ '=' :: (attr.beforeValue.chars ++ attr.quote :: attr.value))

private theorem Attribute.chars_eq (attr : Attribute) :
    attr.chars = attr.before.chars ++ (attr.unfinished ++ [attr.quote]) := by
  simp [Attribute.chars, Attribute.assigned, Attribute.unfinished]

section Spans

variable {text front rest : List Char} {pos : Nat}

private theorem Attribute.text_name (attr : Attribute)
    (htext : text = front ++ (attr.unfinished ++ attr.quote :: rest))
    (hsize : byteLength text < 4294967296) (hpos : pos = byteLength front) :
    (Span.ofOffsets pos (pos + byteLength attr.name.chars)).text text =
      String.ofList attr.name.chars := by
  subst hpos
  refine Span.text_ofOffsets (s := front) (t := attr.afterName.chars ++ (attr.assigned ++ rest)) ?_
    hsize rfl rfl
  simp [htext, Attribute.unfinished, Attribute.assigned]

private theorem Attribute.text_value (attr : Attribute)
    (htext : text = front ++ (attr.unfinished ++ attr.quote :: rest))
    (hsize : byteLength text < 4294967296) (hpos : pos = byteLength front) :
    let valueStart := pos + byteLength attr.name.chars + byteLength attr.afterName.chars + 1 +
      byteLength attr.beforeValue.chars + 1
    (Span.ofOffsets valueStart (valueStart + byteLength attr.value)).text text =
      String.ofList attr.value := by
  subst hpos
  have hequals : '='.utf8Size = 1 := rfl
  have hquote : attr.quote.utf8Size = 1 := by
    rcases attr.quote_ok with hq | hq <;> rw [hq] <;> rfl
  refine Span.text_ofOffsets (s := front ++ (attr.name.chars ++ (attr.afterName.chars ++
    '=' :: (attr.beforeValue.chars ++ [attr.quote])))) (t := attr.quote :: rest) ?_ hsize ?_ ?_
  · simp [htext, Attribute.unfinished]
  · simp [hequals, hquote, Nat.add_assoc]
  · simp [hequals, hquote, Nat.add_assoc]

end Spans

namespace Reading

variable {r : Reading} {text : List Char} {start : Nat} {name : String}

private theorem closesValueOf_of_attribute? {before after : Reading} {tag : Tag} {spot : Spot}
    (hphase : after.phase = .inTag tag spot) (hattr : spot.attribute? = some start) :
    closesValueOf before after text name = false := by
  unfold closesValueOf
  split
  · next hafter =>
      obtain ⟨-, rfl⟩ := Phase.inTag.inj (hphase.symm.trans hafter)
      exact absurd hattr (by simp [Spot.attribute?])
  · rfl

private theorem passes_unfinished (text : List Char) (name : String) {tag : Tag}
    (hgap : r.phase = .inTag tag .gap) (hold : tag.start < r.pos) (attr : Attribute) :
    let nameStop := r.pos + byteLength attr.name.chars
    let valueStart := nameStop + byteLength attr.afterName.chars + 1 +
      byteLength attr.beforeValue.chars + 1
    r.Passes text name attr.unfinished ∧
      (∃ before, (r.readAll attr.unfinished).phase =
        .inTag before (.value ⟨r.pos, nameStop⟩ (some attr.quote) valueStart)) ∧
      ∃ after, ((r.readAll attr.unfinished).step attr.quote).phase =
        .inTag after
          (.afterValue ⟨r.pos, nameStop⟩ ⟨valueStart, valueStart + byteLength attr.value⟩) := by
  intro nameStop valueStart
  have hwhole := readAll_attribute attr r.pos tag r.openTags
  have hr : (⟨r.pos, .inTag tag .gap, r.openTags⟩ : Reading) = r := by rw [← hgap]
  have hchars : attr.name.chars ++ (attr.afterName.chars ++ attr.assigned) =
      attr.unfinished ++ [attr.quote] := by
    simp [Attribute.assigned, Attribute.unfinished]
  dsimp only at hwhole
  rw [hr, hchars, readAll_append] at hwhole
  have hafter := congrArg Reading.phase hwhole
  have hpos : r.pos ≤ (r.readAll attr.unfinished).pos := by
    rw [readAll_pos]
    omega
  obtain ⟨before, place, hbefore, hstart, hleads, -⟩ :=
    inTag_of_step hafter (Nat.ne_of_lt (Nat.lt_of_lt_of_le hold hpos))
  rw [hleads.eq_value] at hbefore
  refine ⟨fun t c u hsplit => ?_, ⟨before, hbefore⟩, ⟨_, hafter⟩⟩
  have hread : (r.readAll attr.unfinished) = ((r.readAll t).step c).readAll u := by
    rw [hsplit, readAll_append, readAll_cons]
  have hpast : r.pos < ((r.readAll t).step c).pos := by
    have hc := c.utf8Size_pos
    rw [step_pos, readAll_pos]
    omega
  rw [hread] at hbefore
  obtain ⟨mid, midPlace, hmid, -, hattr⟩ := attribute?_of_readAll hbefore rfl
    (Nat.lt_of_le_of_lt (Nat.le_of_eq hstart) (Nat.lt_trans hold hpast)) hpast
  exact ⟨closesValueOf_of_attribute? hmid hattr, by rw [hmid]; rfl⟩

private theorem seekAttribute_unfinished {front rest : List Char} {tag : Tag}
    (hgap : r.phase = .inTag tag .gap) (hread : r.HasRead front) (attr : Attribute)
    (htext : text = front ++ (attr.unfinished ++ attr.quote :: rest))
    (hsize : byteLength text < 4294967296) :
    seekAttribute text start name r (attr.unfinished ++ attr.quote :: rest) =
      if String.ofList attr.name.chars = name then some (String.ofList attr.value)
      else seekAttribute text start name (r.readAll (attr.unfinished ++ [attr.quote])) rest := by
  have hold : tag.start < r.pos := by
    have hpos := hread.pos_eq_inTag hgap
    omega
  obtain ⟨hpasses, ⟨before, hbefore⟩, after, hafter⟩ := passes_unfinished text name hgap hold attr
  rw [seekAttribute_append hpasses, readAll_append, readAll_cons, readAll_nil]
  generalize r.readAll attr.unfinished = last at hbefore hafter
  have hname : (last.step attr.quote).attributeNameSpan.map (·.text text) =
      some (String.ofList attr.name.chars) := by
    simp only [attributeNameSpan, hafter, Option.map_some]
    exact congrArg some (attr.text_name htext hsize hread.pos_eq)
  have hvalue : (last.step attr.quote).attributeValueSpan.map (·.text text) =
      some (String.ofList attr.value) := by
    simp only [attributeValueSpan, hafter, Option.map_some]
    exact congrArg some (attr.text_value htext hsize hread.pos_eq)
  have hcloses : closesValueOf last (last.step attr.quote) text name =
      (String.ofList attr.name.chars == name) := by
    simp only [closesValueOf, hbefore, hafter]
    rw [hname, Option.some_beq_some]
  have hcontent : (last.step attr.quote).phase.isContent = false := by
    rw [hafter]
    rfl
  rw [seekAttribute, hcloses, hvalue, hcontent]
  simp

private theorem seekAttribute_attribute {front rest seen : List Char} {opened : List Nat}
    {closing : Bool}
    (h : r.InTag IsRest opened closing seen) (hread : r.HasRead front) (attr : Attribute)
    (htext : text = front ++ (attr.chars ++ rest)) (hsize : byteLength text < 4294967296) :
    seekAttribute text start name r (attr.chars ++ rest) =
      if String.ofList attr.name.chars = name then some (String.ofList attr.value)
      else seekAttribute text start name (r.readAll attr.chars) rest := by
  obtain ⟨tag, hblanks, -⟩ := h.readAll_blanks attr.before_ne
  have hgap : (r.readAll attr.before.chars).phase = .inTag tag .gap := by rw [hblanks]
  have htext' : text =
      (front ++ attr.before.chars) ++ (attr.unfinished ++ attr.quote :: rest) := by
    simp [htext, attr.chars_eq]
  have hrest : seekAttribute text start name _ _ = _ :=
    seekAttribute_unfinished hgap (hread.readAll attr.before.chars) attr htext' hsize
  rw [attr.chars_eq, readAll_append, ← hrest, ← seekAttribute_append (h.passes_blanks attr.before)]
  simp

private theorem seekAttribute_attributes {front rest seen : List Char} {opened : List Nat}
    {closing : Bool}
    (h : r.InTag IsRest opened closing seen) (hread : r.HasRead front) (attrs : List Attribute)
    (htext : text = front ++ (attrs.flatMap Attribute.chars ++ rest))
    (hsize : byteLength text < 4294967296) :
    seekAttribute text start name r (attrs.flatMap Attribute.chars ++ rest) =
      ((attrs.find? fun attr => String.ofList attr.name.chars = name).map fun attr =>
        String.ofList attr.value).or
        (seekAttribute text start name (r.readAll (attrs.flatMap Attribute.chars)) rest) := by
  induction attrs generalizing r front seen with
  | nil => rfl
  | cons attr attrs ih =>
      rw [List.flatMap_cons, List.append_assoc] at htext ⊢
      rw [seekAttribute_attribute h hread attr htext hsize, List.find?_cons]
      split
      · next hname => simp [hname]
      · next hname =>
          rw [ih (h.attribute attr) (hread.readAll attr.chars) (by simpa using htext),
            readAll_append]
          simp [hname]

private theorem seekAttribute_close {seen : List Char} {opened : List Nat} {closing : Bool}
    (h : r.InTag IsRest opened closing seen) (hpos : start < r.pos) (rest : List Char) :
    seekAttribute text start name r ('>' :: rest) = none := by
  have hcontent := (h.mono IsRest.isUnquoted).close.1
  have hpast : start + 1 < (r.step '>').pos := by
    have hsize : '>'.utf8Size = 1 := rfl
    rw [step_pos]
    omega
  rw [seekAttribute, h.atRest.closesValueOf]
  simp [hcontent, hpast]

private theorem seekAttribute_ending {ending seen : List Char} {opened : List Nat}
    (h : r.InTag IsRest opened false seen) (hpos : start < r.pos) (trailing : Blanks)
    (hending : ending = ['>'] ∨ ending = ['/', '>']) (rest : List Char) :
    seekAttribute text start name r (trailing.chars ++ (ending ++ rest)) = none := by
  have htrailing := h.blanks trailing
  have hpast : start < (r.readAll trailing.chars).pos := by
    rw [readAll_pos]
    omega
  rw [seekAttribute_append (h.passes_blanks trailing)]
  rcases hending with rfl | rfl
  · exact seekAttribute_close htrailing hpast rest
  · have hslash : (r.readAll trailing.chars).Passes text name ['/'] := htrailing.passes_slash
    exact (seekAttribute_append hslash ('>' :: rest)).trans
      (seekAttribute_close htrailing.slash (Nat.lt_add_right _ hpast) rest)

/-- The scan of the tag of an element gives the value of its first attribute of the name. -/
theorem attributeOfTag_of_standsIn {element : Element} (h : element.StandsIn text)
    (hsize : byteLength text < 4294967296) :
    attributeOfTag text element.start name = element.body.attribute? name := by
  obtain ⟨start, body⟩ := element
  obtain ⟨front, ending, more, htext, hstart, hending⟩ := h
  obtain rfl : byteLength front = start := hstart
  dsimp only at htext ⊢
  have hpieces : '<' :: (body.chars ++ (ending ++ more)) =
      ('<' :: body.name.chars) ++ (body.attributes.flatMap Attribute.chars ++
        (body.trailing.chars ++ (ending ++ more))) := by
    simp [TagBody.chars]
  have hdrop : dropBytes text (byteLength front) = '<' :: (body.chars ++ (ending ++ more)) := by
    rw [htext, dropBytes_append]
  have hread := (hasRead_at front).readAll ('<' :: body.name.chars)
  have hname := inTag_of_body (r := { pos := byteLength front }) rfl
    ⟨body.name, [], ⟨[], by simp⟩⟩ [] (.inl rfl)
  simp only [TagBody.chars, List.flatMap_nil, List.append_nil, List.nil_append,
    ← readAll_cons] at hname
  have hpos : byteLength front <
      ((({ pos := byteLength front } : Reading).readAll ('<' :: body.name.chars)).readAll
        (body.attributes.flatMap Attribute.chars)).pos := by
    rw [readAll_pos, readAll_pos]
    have hopen := byteLength_pos (List.cons_ne_nil '<' body.name.chars)
    dsimp only
    omega
  rw [attributeOfTag, hdrop, hpieces, seekAttribute_append (passes_tagName rfl body.name),
    seekAttribute_attributes hname hread body.attributes (by rw [htext, hpieces]; simp) hsize]
  rw [seekAttribute_ending (hname.attributes body.attributes) hpos body.trailing hending more,
    Option.or_none, TagBody.attribute?]

private theorem findSome?_attributeOfTag {elements : List Element}
    (h : ∀ element ∈ elements, element.StandsIn text) (hsize : byteLength text < 4294967296) :
    ((elements.map Element.start).findSome? fun start => attributeOfTag text start name) =
      elements.findSome? fun element => element.body.attribute? name := by
  induction elements with
  | nil => rfl
  | cons element elements ih =>
      rw [List.map_cons, List.findSome?_cons, List.findSome?_cons,
        attributeOfTag_of_standsIn (h element List.mem_cons_self) hsize,
        ih fun other hother => h other (List.mem_cons_of_mem element hother)]

/-- In a well-formed document, the lookup gives the value of the attribute on the nearest of the
`levels` innermost open elements that has it; the element whose tag the caret is in counts as the
innermost. -/
theorem ancestorAttribute_of_caret (markup : Markup)
    (hsize : byteLength markup.chars < 4294967296) (offset : Nat) (around : Surroundings)
    (h : markup.Caret offset around) (name : String) (levels : Nat) :
    (upTo markup.chars offset).ancestorAttribute markup.chars name levels =
      (around.openElements.take levels).findSome? fun element => element.body.attribute? name := by
  rw [ancestorAttribute, h.openTags_upTo, ← List.map_take]
  exact findSome?_attributeOfTag
    (fun element hmem => h.standsIn (List.mem_of_mem_take hmem)) hsize

section Example

private def outerTag : TagBody :=
  ⟨.letter 0, [.plain (.letter 10) ['1'] (by decide), .plain (.letter 21) ['2'] (by decide)], .none⟩

private def siblingTag : TagBody := ⟨.letter 1, [.plain (.letter 10) ['0'] (by decide)], .none⟩

private def innerTag : TagBody :=
  ⟨.letter 2, [.plain (.letter 21) ['<', 'd', ' ', 'k', '=', '\x27', '3', '\x27', '>'] (by decide),
    .plain (.letter 21) ['4'] (by decide)], .none⟩

/-- The document `<a k ="1" v ="2"><b k ="0"/><c v ="<d k='3'>" v ="4"/></a>`. -/
private def nestedMarkup : Markup :=
  .element outerTag
    (.leaf (.emptyElement siblingTag) (.leaf (.emptyElement innerTag) .done)) .none .done

/-- Behind the `>` in the first value of `c`, the value of `k` is the one of `a`: neither the closed
sibling counts nor what is written in the value. The tag of `c` alone has no `k`, and of its two
values of `v` the first one counts. -/
theorem ancestorAttribute_of_caret_nested :
    byteLength nestedMarkup.chars < 4294967296 ∧
      nestedMarkup.Caret 44 ⟨[⟨0, outerTag⟩], some ⟨28, innerTag⟩, none⟩ ∧
      (upTo nestedMarkup.chars 44).ancestorAttribute nestedMarkup.chars "k" 2 = some "1" ∧
      (upTo nestedMarkup.chars 44).ancestorAttribute nestedMarkup.chars "k" 1 = none ∧
      (upTo nestedMarkup.chars 44).ancestorAttribute nestedMarkup.chars "v" 2 =
        some "<d k='3'>" := by
  have hsize : byteLength nestedMarkup.chars < 4294967296 := by decide
  have hholds : nestedMarkup.Holds 0 28 (.leaf (.emptyElement innerTag) .done) [⟨0, outerTag⟩] :=
    .inElement (.behindLeaf (.here _ _))
  have hcaret : nestedMarkup.Caret 44 ⟨[⟨0, outerTag⟩], some ⟨28, innerTag⟩, none⟩ :=
    .tag hholds (.emptyElement innerTag .done) (by decide) (by decide)
  refine ⟨hsize, hcaret, ?_, ?_, ?_⟩
  · exact (ancestorAttribute_of_caret nestedMarkup hsize 44 _ hcaret "k" 2).trans (by decide)
  · exact (ancestorAttribute_of_caret nestedMarkup hsize 44 _ hcaret "k" 1).trans (by decide)
  · exact (ancestorAttribute_of_caret nestedMarkup hsize 44 _ hcaret "v" 2).trans (by decide)

end Example

end Reading

end XamlAssist.Document
