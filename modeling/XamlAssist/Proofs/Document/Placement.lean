import XamlAssist.Document.Context
import XamlAssist.Proofs.Document.TagReading

/-!
# Where the parts of a reading stand

A reading holds offsets, and any text at all may lead to it: with a stray `<`, with a quote that is
never closed, with a comment that opens inside a tag. The open tags are always offsets of a `<` in
their order, and the names and values that a reading tells are pieces of what has been read, with
the characters that such a piece may have.

For this every place of a tag says what stands in the text of that tag (`Spot.Describes`). A
character either ends the tag, drops it for another one, or leads to a place that says the right
thing about the text with this character. Main statement: `sound_of_moves`.
-/

namespace XamlAssist.Document

open Text

/-! ### Pieces of a text -/

/-- The name of an attribute has at least one character, no blank, bracket or slash, and an equals
sign only at its start. -/
structure IsAttributeName (name : List Char) : Prop where
  ne_nil : name ≠ []
  plain : ∀ c ∈ name, Reading.endsTagName c = false
  equals : '=' ∉ name.tail

private theorem isAttributeName_singleton {c : Char} (hc : Reading.endsTagName c = false) :
    IsAttributeName [c] :=
  ⟨by simp, by simpa using hc, by simp⟩

theorem IsAttributeName.concat {name : List Char} {c : Char} (h : IsAttributeName name)
    (hc : Reading.endsTagName c = false) (hequals : c ≠ '=') : IsAttributeName (name ++ [c]) := by
  refine ⟨by simp, ?_, ?_⟩
  · intro d hd
    rcases List.mem_append.mp hd with hd | hd
    · exact h.plain d hd
    · rwa [List.mem_singleton.mp hd]
  · rw [List.tail_append_of_ne_nil h.ne_nil, List.mem_append, not_or]
    exact ⟨h.equals, by simpa using hequals.symm⟩

/-- One of the two quotes that an attribute value may stand in. -/
def IsQuote (c : Char) : Prop := c = '"' ∨ c = '\x27'

namespace Bounds

/-- In a text that begins at the offset `base`, the bounds are those of a piece; `P` holds of what
stands before the piece, of the piece, and of what stands behind it. -/
def Enclose (bounds : Bounds) (base : Nat) (text : List Char)
    (P : List Char → List Char → List Char → Prop) : Prop :=
  ∃ before piece after, text = before ++ (piece ++ after) ∧
    bounds.start = base + byteLength before ∧
    bounds.stop = base + byteLength before + byteLength piece ∧ P before piece after

variable {base : Nat} {text : List Char} {P Q : List Char → List Char → List Char → Prop} {c : Char}

theorem Enclose.append {bounds : Bounds} (h : bounds.Enclose base text P)
    (hPQ : ∀ before piece after, P before piece after → Q before piece (after ++ [c])) :
    bounds.Enclose base (text ++ [c]) Q := by
  obtain ⟨before, piece, after, rfl, hstart, hstop, hP⟩ := h
  exact ⟨before, piece, after ++ [c], by simp, hstart, hstop, hPQ before piece after hP⟩

private theorem Enclose.exists_at_end {start : Nat}
    (h : Enclose ⟨start, base + byteLength text⟩ base text P) :
    ∃ before piece, text = before ++ piece ∧ start = base + byteLength before ∧
      P before piece [] := by
  obtain ⟨before, piece, after, rfl, hstart, hstop, hP⟩ := h
  have hafter : after = [] := by
    by_cases hne : after = []
    · exact hne
    · have hpos := byteLength_pos hne
      simp only [byteLength_append] at hstop
      omega
  subst hafter
  exact ⟨before, piece, by simp, hstart, hP⟩

theorem Enclose.grow {start : Nat} (h : Enclose ⟨start, base + byteLength text⟩ base text P)
    (hPQ : ∀ before piece, P before piece [] → Q before (piece ++ [c]) []) :
    Enclose ⟨start, base + byteLength (text ++ [c])⟩ base (text ++ [c]) Q := by
  obtain ⟨before, piece, rfl, hstart, hP⟩ := h.exists_at_end
  refine ⟨before, piece ++ [c], [], by simp, hstart, ?_, hPQ before piece hP⟩
  simp only [byteLength_append, Nat.add_assoc]

theorem Enclose.finish {start : Nat} (h : Enclose ⟨start, base + byteLength text⟩ base text P)
    (hPQ : ∀ before piece, P before piece [] → Q before piece [c]) :
    Enclose ⟨start, base + byteLength text⟩ base (text ++ [c]) Q := by
  obtain ⟨before, piece, rfl, hstart, hP⟩ := h.exists_at_end
  refine ⟨before, piece, [c], by simp, hstart, ?_, hPQ before piece hP⟩
  rw [byteLength_append, Nat.add_assoc]

private theorem enclose_last (h : P text [c] []) :
    Enclose ⟨base + byteLength text, base + byteLength (text ++ [c])⟩ base (text ++ [c]) P :=
  ⟨text, [c], [], by simp, rfl, by simp [Nat.add_assoc], h⟩

private theorem enclose_end (h : P text [] []) :
    Enclose ⟨base + byteLength text, base + byteLength text⟩ base text P :=
  ⟨text, [], [], by simp, rfl, by simp, h⟩

theorem Enclose.stands {bounds : Bounds} {front rest : List Char}
    {near : List Char → List Char → Prop} {R : List Char → Prop}
    (h : bounds.Enclose (byteLength front) text P)
    (hsize : byteLength (front ++ (text ++ rest)) < 4294967296)
    (hP : ∀ before piece after, P before piece after →
      near (front ++ before) (after ++ rest) ∧ R piece) :
    let span := Span.ofOffsets bounds.start bounds.stop
    span.Stands (front ++ (text ++ rest)) near ∧ R (span.read (front ++ (text ++ rest))) ∧
      span.stop.toNat ≤ byteLength (front ++ text) := by
  intro span
  obtain ⟨before, piece, after, rfl, hstart, hstop, hpiece⟩ := h
  obtain ⟨hnear, hR⟩ := hP before piece after hpiece
  have hsplit : front ++ ((before ++ (piece ++ after)) ++ rest) =
      (front ++ before) ++ (piece ++ (after ++ rest)) := by simp
  have hspan : span = .ofOffsets (byteLength (front ++ before))
      (byteLength (front ++ before) + byteLength piece) := by
    simp only [span, hstart, hstop, byteLength_append]
  rw [hsplit] at hsize ⊢
  have hread := Span.read_ofOffsets (front ++ before) piece (after ++ rest) hsize
  have hstands := Span.stands_ofOffsets (front ++ before) piece (after ++ rest) hsize hnear
  simp only [byteLength_append] at hsize
  have hto := (Span.ofOffsets_toNat (byteLength (front ++ before))
    (byteLength (front ++ before) + byteLength piece)
    (by simp only [byteLength_append]; omega) (by omega)).2
  rw [← hspan] at hread hstands hto
  refine ⟨hstands, by rwa [hread], ?_⟩
  simp only [hto, byteLength_append]
  omega

end Bounds

/-! ### What a reading says about the text -/

/-- The bounds of an attribute name. -/
def Bounds.EncloseName (bounds : Bounds) (base : Nat) (text : List Char) : Prop :=
  bounds.Enclose base text fun _ name _ => IsAttributeName name

/-- What a place of a tag says about the text of the tag, which begins at `base` behind its `<`. -/
def Spot.Describes (base : Nat) (text : List Char) : Spot → Prop
  | .name | .gap => True
  | .attributeName start stop =>
      Bounds.EncloseName ⟨start, stop.getD (base + byteLength text)⟩ base text
  | .beforeValue nameBounds => nameBounds.EncloseName base text
  | .value nameBounds quote start =>
      nameBounds.EncloseName base text ∧
        Bounds.Enclose ⟨start, base + byteLength text⟩ base text fun before value _ =>
          ∀ q, quote = some q → IsQuote q ∧ before.getLast? = some q ∧ q ∉ value
  | .afterValue nameBounds valueBounds =>
      nameBounds.EncloseName base text ∧
        valueBounds.Enclose base text fun before value after =>
          ∃ q, IsQuote q ∧ before.getLast? = some q ∧ q ∉ value ∧ after.head? = some q

/-- Since the `<` at `start` the characters of `seen` have been read, the latest first. -/
def SeenSince (text : List Char) (start : Nat) (seen : List Char) : Prop :=
  ∃ front, text = front ++ '<' :: seen.reverse ∧ byteLength front = start

/-- The offset of the `<` of the construct that the text ends inside of, and the characters behind
it, the latest first. -/
def Phase.sinceOpening? : Phase → Option (Nat × List Char)
  | .content _ => none
  | .comment tag body => some (tag.start, body ++ tag.seen)
  | .cdata tag body => some (tag.start, body ++ tag.seen)
  | .inTag tag _ => some (tag.start, tag.seen)

/-- The name of the tag stands in the text, right behind the `<` or the `</` of the tag. -/
structure Tag.NamedIn (tag : Tag) (text : List Char) : Prop where
  behind : tag.nameStart = tag.start + if tag.closing then 2 else 1
  nameStart : isPlace text tag.nameStart = true
  nameStop : ∀ stop, tag.nameStop = some stop → tag.nameStart ≤ stop ∧ isPlace text stop = true

theorem Tag.NamedIn.append {tag : Tag} {text : List Char} (h : tag.NamedIn text)
    (more : List Char) : tag.NamedIn (text ++ more) where
  behind := h.behind
  nameStart := isPlace_append_left h.nameStart more
  nameStop stop hstop :=
    ⟨(h.nameStop stop hstop).1, isPlace_append_left (h.nameStop stop hstop).2 more⟩

theorem SeenSince.concat {text seen : List Char} {start : Nat} (h : SeenSince text start seen)
    (c : Char) : SeenSince (text ++ [c]) start (c :: seen) := by
  obtain ⟨front, rfl, hfront⟩ := h
  exact ⟨front, by simp, hfront⟩

private theorem seenSince_open (text : List Char) :
    SeenSince (text ++ ['<']) (byteLength text) [] :=
  ⟨text, rfl, rfl⟩

theorem SeenSince.byteLength_eq {text seen : List Char} {start : Nat}
    (h : SeenSince text start seen) :
    byteLength text = start + 1 + byteLength seen.reverse := by
  obtain ⟨front, rfl, hfront⟩ := h
  have hsize : '<'.utf8Size = 1 := rfl
  rw [byteLength_append, byteLength_cons, hfront, hsize, Nat.add_assoc]

namespace Reading

/-- What the reading says about the text, apart from its position. -/
structure Describes (r : Reading) (text : List Char) : Prop where
  marks : ∀ start ∈ r.openTags, ∃ seen, SeenSince text start seen
  decreasing : r.openTags.Pairwise (· > ·)
  named : ∀ tag, r.phase.tag? = some tag → tag.NamedIn text
  since : ∀ start seen, r.phase.sinceOpening? = some (start, seen) → SeenSince text start seen
  nameOpen : ∀ tag, r.phase = .inTag tag .name → tag.nameStop = none
  innermost : ∀ tag spot, r.phase = .inTag tag spot →
    r.openTags.head? = some tag.start ∧ spot.Describes (tag.start + 1) tag.seen.reverse

/-- The reading has read `text`. -/
structure HasRead (r : Reading) (text : List Char) : Prop extends r.Describes text where
  pos_eq : r.pos = byteLength text

section Steps

variable {r : Reading} {text : List Char} {tag : Tag} {spot : Spot} {c : Char}

private theorem HasRead.marks_concat (h : r.HasRead text) :
    ∀ start ∈ r.openTags, ∃ seen, SeenSince (text ++ [c]) start seen := by
  intro start hstart
  obtain ⟨seen, hseen⟩ := h.marks start hstart
  exact ⟨c :: seen, hseen.concat c⟩

private theorem HasRead.marks_drop (h : r.HasRead text) (n : Nat) :
    ∀ start ∈ r.openTags.drop n, ∃ seen, SeenSince (text ++ [c]) start seen :=
  fun start hstart => h.marks_concat start (List.mem_of_mem_drop hstart)

theorem HasRead.pos_eq_inTag (h : r.HasRead text) (hphase : r.phase = .inTag tag spot) :
    r.pos = tag.start + 1 + byteLength tag.seen.reverse := by
  rw [h.pos_eq]
  exact (h.since _ _ (by rw [hphase]; rfl)).byteLength_eq

private theorem HasRead.namedHere (h : r.HasRead text) (hphase : r.phase = .inTag tag spot)
    (seen : List Char) :
    Tag.NamedIn { tag with nameStop := some r.pos, seen } (text ++ [c]) := by
  have hnamed := h.named tag (by rw [hphase]; rfl)
  refine ⟨hnamed.behind, isPlace_append_left hnamed.nameStart [c], ?_⟩
  intro stop hstop
  obtain rfl := Option.some.inj hstop
  rw [h.pos_eq]
  exact ⟨le_of_isPlace hnamed.nameStart, isPlace_iff.mpr ⟨text, [c], rfl, rfl⟩⟩

theorem HasRead.moveTo (h : r.HasRead text) (hphase : r.phase = .inTag tag spot) {next : Tag}
    {nextSpot : Spot} (hstart : next.start = tag.start) (hseen : next.seen = c :: tag.seen)
    (hnamed : next.NamedIn (text ++ [c]))
    (hspot : nextSpot.Describes (tag.start + 1) (tag.seen.reverse ++ [c]))
    (hopen : nextSpot = .name → next.nameStop = none := by simp) :
    (r.moveTo next nextSpot).Describes (text ++ [c]) where
  marks := h.marks_concat
  decreasing := h.decreasing
  named other hother := by
    obtain rfl := Option.some.inj hother
    exact hnamed
  since start seen hsince := by
    obtain ⟨rfl, rfl⟩ := Prod.mk.inj (Option.some.inj hsince)
    rw [hstart, hseen]
    exact (h.since _ _ (by rw [hphase]; rfl)).concat c
  nameOpen other hother := by
    obtain ⟨rfl, rfl⟩ := Phase.inTag.inj hother
    exact hopen rfl
  innermost other otherSpot hother := by
    obtain ⟨rfl, rfl⟩ := Phase.inTag.inj hother
    rw [hstart, hseen, List.reverse_cons]
    exact ⟨(h.innermost _ _ hphase).1, hspot⟩

theorem HasRead.goOn (h : r.HasRead text) (hphase : r.phase = .inTag tag spot) {nextSpot : Spot}
    (hspot : nextSpot.Describes (tag.start + 1) (tag.seen.reverse ++ [c]))
    (hopen : nextSpot = .name → tag.nameStop = none := by simp) :
    (r.moveTo { tag with seen := c :: tag.seen } nextSpot).Describes (text ++ [c]) := by
  have hnamed := (h.named tag (by rw [hphase]; rfl)).append [c]
  exact h.moveTo hphase rfl rfl { hnamed with } hspot hopen

private theorem HasRead.openTag_drop (h : r.HasRead text) (n : Nat) :
    ({ r with openTags := r.openTags.drop n } : Reading).openTag.Describes (text ++ ['<']) := by
  have hopen : SeenSince (text ++ ['<']) r.pos [] := h.pos_eq ▸ seenSince_open text
  refine ⟨?_, ?_, ?_, ?_, ?_, ?_⟩
  · intro start hstart
    rcases List.mem_cons.mp hstart with rfl | hstart
    · exact ⟨[], hopen⟩
    · exact h.marks_drop n start hstart
  · refine List.pairwise_cons.mpr ⟨fun start hstart => ?_, h.decreasing.drop⟩
    obtain ⟨seen, hseen⟩ := h.marks start (List.mem_of_mem_drop hstart)
    have hlength := hseen.byteLength_eq
    rw [← h.pos_eq] at hlength
    show start < r.pos
    omega
  · intro tag htag
    obtain rfl := Option.some.inj htag
    refine ⟨rfl, isPlace_iff.mpr ⟨text ++ ['<'], [], by simp, ?_⟩, by simp⟩
    simp only [byteLength_append, byteLength_cons, byteLength_nil, h.pos_eq]
    rfl
  · intro start seen hsince
    obtain ⟨rfl, rfl⟩ := Prod.mk.inj (Option.some.inj hsince)
    exact hopen
  · intro tag hphase
    obtain ⟨rfl, -⟩ := Phase.inTag.inj hphase
    rfl
  · intro tag spot hphase
    obtain ⟨rfl, rfl⟩ := Phase.inTag.inj hphase
    exact ⟨rfl, trivial⟩

theorem HasRead.abandonTag (h : r.HasRead text) : r.abandonTag.Describes (text ++ ['<']) :=
  h.openTag_drop 1

/-- Outside tags some of the open tags are left, and the construct that is read or was read last has
its place in the text. -/
theorem HasRead.leave (h : r.HasRead text) {phase : Phase} (hinside : phase.isInsideTag = false)
    (hnamed : ∀ tag, phase.tag? = some tag → tag.NamedIn (text ++ [c]))
    (hsince : ∀ start seen, phase.sinceOpening? = some (start, seen) →
      SeenSince (text ++ [c]) start seen) (n : Nat) :
    ({ r with phase, openTags := r.openTags.drop n } : Reading).Describes (text ++ [c]) where
  marks := h.marks_drop n
  decreasing := h.decreasing.drop
  named := hnamed
  since := hsince
  nameOpen tag hphase := by
    rw [show phase = _ from hphase] at hinside
    simp [Phase.isInsideTag] at hinside
  innermost tag spot hphase := by
    rw [show phase = _ from hphase] at hinside
    simp [Phase.isInsideTag] at hinside

theorem HasRead.closeTag (h : r.HasRead text) {last : Tag} (hlast : last.NamedIn (text ++ [c])) :
    (r.closeTag last).Describes (text ++ [c]) := by
  refine h.leave rfl (fun tag htag => ?_) (by simp [Phase.sinceOpening?]) _
  obtain rfl := Option.some.inj htag
  exact hlast

theorem endsTagName_eq_false (hblank : isMarkupBlank c = false) (hgt : c ≠ '>') (hslash : c ≠ '/')
    (hlt : c ≠ '<') : endsTagName c = false := by
  simp [endsTagName, hblank, hgt, hslash, hlt]

end Steps

/-! ### One character inside a tag -/

section InTag

variable {r : Reading} {text : List Char} {tag : Tag} {c : Char}

private theorem HasRead.turnInto (h : r.HasRead text) (hphase : r.phase = .inTag tag .name)
    {phase : Phase} (hinside : phase.isInsideTag = false)
    (htag : phase.tag? = some { tag with seen := c :: tag.seen })
    (hsince : phase.sinceOpening? = some (tag.start, c :: tag.seen)) :
    ({ r with phase, openTags := r.openTags.drop 1 } : Reading).Describes (text ++ [c]) := by
  refine h.leave hinside (fun other hother => ?_) (fun start seen hother => ?_) 1
  · obtain rfl := Option.some.inj (htag.symm.trans hother)
    exact { (h.named tag (by rw [hphase]; rfl)).append [c] with }
  · obtain ⟨rfl, rfl⟩ := Prod.mk.inj (Option.some.inj (hsince.symm.trans hother))
    exact (h.since _ _ (by rw [hphase]; rfl)).concat c

private theorem HasRead.namedBehindSlash (h : r.HasRead text) (hphase : r.phase = .inTag tag .name)
    (hpos : r.pos = tag.nameStart) (hclosing : tag.closing = false) (seen : List Char) :
    Tag.NamedIn { tag with closing := true, nameStart := r.pos + 1, seen } (text ++ ['/']) := by
  refine ⟨?_, ?_, by simp [h.nameOpen tag hphase]⟩
  · have hbehind := (h.named tag (by rw [hphase]; rfl)).behind
    simp only [hclosing, Bool.false_eq_true, if_false] at hbehind
    simp only [hpos, hbehind, if_true]
  · refine isPlace_iff.mpr ⟨text ++ ['/'], [], by simp, ?_⟩
    rw [byteLength_append, h.pos_eq]
    rfl

theorem HasRead.readName (h : r.HasRead text) (hphase : r.phase = .inTag tag .name) :
    (r.readName tag c).Describes (text ++ [c]) := by
  have hopen := h.nameOpen tag hphase
  unfold Reading.readName
  dsimp only
  split
  · exact h.turnInto hphase rfl rfl (by simp [Phase.sinceOpening?])
  split
  · exact h.turnInto hphase rfl rfl (by simp [Phase.sinceOpening?])
  split
  · next hslash =>
      split
      · next hfirst =>
          subst hslash
          simp only [Bool.not_eq_true'] at hfirst
          exact h.moveTo hphase rfl rfl (h.namedBehindSlash hphase hfirst.1 hfirst.2 _) trivial
            fun _ => hopen
      · exact h.moveTo hphase rfl rfl (h.namedHere hphase _) trivial
  split
  · exact h.closeTag (h.namedHere hphase _)
  split
  · next hlt => exact hlt ▸ h.abandonTag
  split
  · exact h.moveTo hphase rfl rfl (h.namedHere hphase _) trivial
  · exact h.goOn hphase trivial fun _ => hopen

theorem HasRead.startAttribute (h : r.HasRead text) {spot : Spot}
    (hphase : r.phase = .inTag tag spot) (hc : endsTagName c = false) :
    (r.moveTo { tag with seen := c :: tag.seen } (.attributeName r.pos none)).Describes
      (text ++ [c]) := by
  refine h.goOn hphase ?_
  rw [h.pos_eq_inTag hphase]
  exact Bounds.enclose_last (isAttributeName_singleton hc)

private theorem HasRead.readGap (h : r.HasRead text) (hphase : r.phase = .inTag tag .gap) :
    (r.readSpot tag .gap c).Describes (text ++ [c]) := by
  have hnamed := (h.named tag (by rw [hphase]; rfl)).append [c]
  unfold readSpot
  dsimp only
  split
  · exact h.closeTag hnamed
  split
  · next hlt => exact hlt ▸ h.abandonTag
  split
  · exact h.goOn hphase trivial
  · next hgt hlt hother =>
      simp only [Bool.or_eq_true, decide_eq_true_eq, not_or, Bool.not_eq_true] at hother
      exact h.startAttribute hphase (endsTagName_eq_false hother.2 hgt hother.1 hlt)

private theorem HasRead.readAttributeName {start : Nat} {stop : Option Nat} (h : r.HasRead text)
    (hphase : r.phase = .inTag tag (.attributeName start stop)) :
    (r.readSpot tag (.attributeName start stop) c).Describes (text ++ [c]) := by
  have hnamed := (h.named tag (by rw [hphase]; rfl)).append [c]
  have hname : Bounds.EncloseName ⟨start, stop.getD r.pos⟩ (tag.start + 1) tag.seen.reverse := by
    rw [h.pos_eq_inTag hphase]
    exact (h.innermost _ _ hphase).2
  have hkept : Bounds.EncloseName ⟨start, stop.getD r.pos⟩ (tag.start + 1)
      (tag.seen.reverse ++ [c]) := hname.append fun _ _ _ h => h
  unfold readSpot
  dsimp only
  split
  · exact h.goOn hphase hkept
  split
  · exact h.closeTag hnamed
  split
  · next hlt => exact hlt ▸ h.abandonTag
  split
  · exact h.goOn hphase trivial
  split
  · exact h.goOn hphase hkept
  next hequals hgt hlt hslash hblank =>
    have hc : endsTagName c = false :=
      endsTagName_eq_false (Bool.eq_false_iff.mpr hblank) hgt hslash hlt
    cases stop with
    | some stop => exact h.startAttribute hphase hc
    | none =>
        rw [Option.getD_none, h.pos_eq_inTag hphase] at hname
        exact h.goOn hphase (hname.grow fun _ _ h => h.concat hc hequals)

theorem HasRead.readBeforeValue {name : Bounds} (h : r.HasRead text)
    (hphase : r.phase = .inTag tag (.beforeValue name)) :
    (r.readSpot tag (.beforeValue name) c).Describes (text ++ [c]) := by
  have hnamed := (h.named tag (by rw [hphase]; rfl)).append [c]
  have hname : name.EncloseName (tag.start + 1) (tag.seen.reverse ++ [c]) :=
    (h.innermost _ _ hphase).2.append fun _ _ _ h => h
  have hpos := h.pos_eq_inTag hphase
  unfold readSpot
  dsimp only
  split
  · next hquote =>
      have hquote : IsQuote c := by simpa [IsQuote] using hquote
      have hsize : c.utf8Size = 1 := by rcases hquote with rfl | rfl <;> rfl
      have hend : r.pos + 1 = tag.start + 1 + byteLength (tag.seen.reverse ++ [c]) := by
        rw [byteLength_append, byteLength_cons, byteLength_nil, hsize]
        omega
      refine h.goOn hphase ⟨hname, ?_⟩
      rw [hend]
      refine Bounds.enclose_end fun q hq => ?_
      obtain rfl := Option.some.inj hq
      exact ⟨hquote, by simp, List.not_mem_nil⟩
  split
  · exact h.closeTag hnamed
  split
  · next hlt => exact hlt ▸ h.abandonTag
  split
  · exact h.goOn hphase hname
  · refine h.goOn hphase ⟨hname, ?_⟩
    rw [hpos]
    exact Bounds.enclose_last (by simp)

theorem HasRead.readQuoted {name : Bounds} {quote : Char} {start : Nat} (h : r.HasRead text)
    (hphase : r.phase = .inTag tag (.value name (some quote) start)) :
    (r.readSpot tag (.value name (some quote) start) c).Describes (text ++ [c]) := by
  obtain ⟨hname, hvalue⟩ := (h.innermost _ _ hphase).2
  have hname : name.EncloseName (tag.start + 1) (tag.seen.reverse ++ [c]) :=
    hname.append fun _ _ _ h => h
  unfold readSpot
  dsimp only
  split
  · next hquote =>
      subst hquote
      refine h.goOn hphase ⟨hname, ?_⟩
      rw [h.pos_eq_inTag hphase]
      refine hvalue.finish fun before value hnear => ?_
      obtain ⟨hquote, hbefore, hfree⟩ := hnear c rfl
      exact ⟨c, hquote, hbefore, hfree, rfl⟩
  · next hother =>
      refine h.goOn hphase ⟨hname, hvalue.grow fun before value hnear q hq => ?_⟩
      obtain ⟨hquote, hbefore, hfree⟩ := hnear q hq
      obtain rfl := Option.some.inj hq
      refine ⟨hquote, hbefore, ?_⟩
      simp only [List.mem_append, List.mem_singleton, not_or]
      exact ⟨hfree, fun heq => hother heq.symm⟩

theorem HasRead.readUnquoted {name : Bounds} {start : Nat} (h : r.HasRead text)
    (hphase : r.phase = .inTag tag (.value name none start)) :
    (r.readSpot tag (.value name none start) c).Describes (text ++ [c]) := by
  have hnamed := (h.named tag (by rw [hphase]; rfl)).append [c]
  obtain ⟨hname, hvalue⟩ := (h.innermost _ _ hphase).2
  unfold readSpot
  dsimp only
  split
  · exact h.goOn hphase trivial
  split
  · exact h.closeTag hnamed
  · exact h.goOn hphase ⟨hname.append fun _ _ _ h => h, hvalue.grow (by simp)⟩

private theorem HasRead.readAfterValue {name value : Bounds} (h : r.HasRead text)
    (hphase : r.phase = .inTag tag (.afterValue name value)) :
    (r.readSpot tag (.afterValue name value) c).Describes (text ++ [c]) := by
  have hnamed := (h.named tag (by rw [hphase]; rfl)).append [c]
  unfold readSpot
  dsimp only
  split
  · exact h.closeTag hnamed
  split
  · exact h.goOn hphase trivial
  split
  · next hlt => exact hlt ▸ h.abandonTag
  · next hgt hother hlt =>
      simp only [Bool.or_eq_true, decide_eq_true_eq, not_or, Bool.not_eq_true] at hother
      exact h.startAttribute hphase (endsTagName_eq_false hother.2 hgt hother.1 hlt)

theorem HasRead.readSpot {spot : Spot} (h : r.HasRead text) (hphase : r.phase = .inTag tag spot) :
    (r.readSpot tag spot c).Describes (text ++ [c]) := by
  cases spot with
  | name => exact h.readName hphase
  | gap => exact h.readGap hphase
  | attributeName start stop => exact h.readAttributeName hphase
  | beforeValue name => exact h.readBeforeValue hphase
  | value name quote start =>
      cases quote with
      | none => exact h.readUnquoted hphase
      | some quote => exact h.readQuoted hphase
  | afterValue name value => exact h.readAfterValue hphase

end InTag

/-! ### Runs -/

section Runs

variable {r : Reading} {text : List Char} {c : Char}

private theorem HasRead.readBody (h : r.HasRead text) {tag : Tag} {body : List Char}
    (inside : Tag → List Char → Phase)
    (htag : ∀ body, (inside tag body).tag? = some tag)
    (hsince : ∀ body, (inside tag body).sinceOpening? = some (tag.start, body ++ tag.seen))
    (hinside : ∀ body, (inside tag body).isInsideTag = false) (hphase : r.phase = inside tag body)
    (ends : Bool) :
    ({ r with phase := if ends then .content (some tag) else inside tag (c :: body) } :
      Reading).Describes (text ++ [c]) := by
  have hnamed := (h.named tag (by rw [hphase, htag])).append [c]
  cases ends with
  | true =>
      refine h.leave rfl (fun other hother => ?_) (by simp [Phase.sinceOpening?]) 0
      obtain rfl := Option.some.inj hother
      exact hnamed
  | false =>
      refine h.leave (hinside _) (fun other hother => ?_) (fun start seen hother => ?_) 0
      · obtain rfl := Option.some.inj ((htag _).symm.trans hother)
        exact hnamed
      · obtain ⟨rfl, rfl⟩ := Prod.mk.inj (Option.some.inj ((hsince _).symm.trans hother))
        exact (h.since tag.start (body ++ tag.seen) (by rw [hphase, hsince])).concat c

theorem HasRead.react (h : r.HasRead text) : (r.react c).Describes (text ++ [c]) := by
  unfold Reading.react
  split
  · next last hphase =>
      split
      · next hlt => exact hlt ▸ h.openTag_drop 0
      · have hinside : r.phase.isInsideTag = false := by rw [hphase]; rfl
        refine h.leave hinside (fun tag htag => ?_)
          (by simp [hphase, Phase.sinceOpening?]) 0
        exact (h.named tag htag).append [c]
  · next hphase =>
      exact h.readBody .comment (fun _ => rfl) (fun _ => rfl) (fun _ => rfl) hphase _
  · next hphase =>
      exact h.readBody .cdata (fun _ => rfl) (fun _ => rfl) (fun _ => rfl) hphase _
  · next hphase => exact h.readSpot hphase

theorem HasRead.step (h : r.HasRead text) (c : Char) : (r.step c).HasRead (text ++ [c]) where
  toDescribes := { (h.react : (r.react c).Describes (text ++ [c])) with }
  pos_eq := by simp [step_pos, h.pos_eq]

theorem HasRead.readAll (h : r.HasRead text) (s : List Char) :
    (r.readAll s).HasRead (text ++ s) := by
  induction s generalizing r text with
  | nil => simpa using h
  | cons c s ih => simpa using ih (h.step c)

/-- A reading that begins between tags has read whatever stands before it. -/
theorem hasRead_at (text : List Char) : ({ pos := byteLength text } : Reading).HasRead text where
  marks := by simp
  decreasing := .nil
  named := by simp [Phase.tag?]
  since := by simp [Phase.sinceOpening?]
  nameOpen := by simp
  innermost := by simp
  pos_eq := rfl

theorem hasRead_start : ({} : Reading).HasRead [] := hasRead_at []

end Runs

/-! ### Moves of the caret -/

/-- What may be done with a reading: going on up to an offset, and going to the next sibling. -/
inductive Move
  | advance (offset : Nat)
  | seekSibling
  deriving DecidableEq, Repr

/-- The reading after a move. -/
def Move.apply (text : List Char) (r : Reading) : Move → Reading
  | .advance offset => r.advance text offset
  | .seekSibling => (r.seekSibling text).2

/-- `next` comes from `r` by reading a beginning of `rest`. -/
def ReadsIn (r : Reading) (rest : List Char) (next : Reading) : Prop :=
  ∃ s, s <+: rest ∧ next = r.readAll s

theorem ReadsIn.refl (r : Reading) (rest : List Char) : r.ReadsIn rest r :=
  ⟨[], List.nil_prefix, rfl⟩

theorem ReadsIn.cons {r next : Reading} {c : Char} {rest : List Char}
    (h : (r.step c).ReadsIn rest next) : r.ReadsIn (c :: rest) next := by
  obtain ⟨s, hs, rfl⟩ := h
  exact ⟨c :: s, (List.prefix_cons_inj c).mpr hs, rfl⟩

section ReadUntil

variable {stop : Reading → List Char → Bool} {r mid next : Reading} {rest : List Char}

private theorem readsIn_of_readUntil {found : Option (List Char)}
    (h : r.readUntil stop rest = (mid, found)) : r.ReadsIn rest mid := by
  induction rest generalizing r with
  | nil =>
      obtain rfl : r = mid := congrArg Prod.fst h
      exact .refl r []
  | cons c rest ih =>
      rw [readUntil] at h
      split at h
      · obtain rfl : r = mid := congrArg Prod.fst h
        exact .refl r _
      · exact (ih h).cons

private theorem ReadsIn.behind_readUntil {tail : List Char} (hnext : mid.ReadsIn tail next)
    (h : r.readUntil stop rest = (mid, some tail)) : r.ReadsIn rest next := by
  induction rest generalizing r with
  | nil =>
      obtain ⟨rfl, -, rfl⟩ : r = mid ∧ stop r [] = true ∧ [] = tail := by
        simpa [readUntil] using h
      exact hnext
  | cons c rest ih =>
      rw [readUntil] at h
      split at h
      · obtain ⟨rfl, rfl⟩ : r = mid ∧ c :: rest = tail := by simpa using h
        exact hnext
      · exact (ih h).cons

end ReadUntil

private theorem readsIn_seekSibling (r : Reading) (text : List Char) :
    r.ReadsIn (dropBytes text r.pos) (r.seekSibling text).2 := by
  unfold seekSibling
  dsimp only
  split
  · next hfirst => exact readsIn_of_readUntil hfirst
  next hfirst =>
    refine .behind_readUntil ?_ hfirst
    split
    · next hsecond => exact readsIn_of_readUntil hsecond
    next hsecond =>
      refine .behind_readUntil ?_ hsecond
      split
      · next hthird => exact readsIn_of_readUntil hthird
      · next hthird => exact readsIn_of_readUntil hthird

theorem readsIn_apply (text : List Char) (r : Reading) (move : Move) :
    r.ReadsIn (dropBytes text r.pos) (move.apply text r) := by
  cases move with
  | advance offset =>
      exact ⟨_, takeBytes_isPrefix _ _, by rw [Move.apply, advance_eq_readAll]⟩
  | seekSibling => exact r.readsIn_seekSibling text

theorem HasRead.apply {r : Reading} {before : List Char} (h : r.HasRead before) (move : Move)
    (rest : List Char) :
    ∃ s t, rest = s ++ t ∧ (move.apply (before ++ rest) r).HasRead (before ++ s) := by
  obtain ⟨s, ⟨t, hrest⟩, hnext⟩ := readsIn_apply (before ++ rest) r move
  rw [h.pos_eq, dropBytes_append] at hrest
  exact ⟨s, t, hrest.symm, hnext ▸ h.readAll s⟩

/-- Whatever moves are made, the reading has read a beginning of the text. -/
theorem HasRead.moves {r : Reading} {text before rest : List Char} (h : r.HasRead before)
    (htext : text = before ++ rest) (moves : List Move) :
    ∃ before rest, text = before ++ rest ∧ (moves.foldl (Move.apply text) r).HasRead before := by
  induction moves generalizing r before rest with
  | nil => exact ⟨before, rest, htext, h⟩
  | cons move moves ih =>
      obtain ⟨s, t, hrest, hnext⟩ := h.apply move rest
      rw [← htext] at hnext
      exact ih hnext (by rw [htext, hrest, List.append_assoc])

/-! ### What a reading tells -/

/-- The offsets that a reading holds and the names and values that it tells are right for the
text. -/
structure Sound (r : Reading) (text : List Char) : Prop where
  place : isPlace text r.pos = true
  increasing : r.openTags.reverse.Pairwise (· < ·)
  opened : ∀ start ∈ r.openTags, start < r.pos ∧ (dropBytes text start).head? = some '<'
  /-- The innermost open tag is the one that the text ends inside of, and `seen` is what has been
  read of it. -/
  innermost : ∀ tag spot, r.phase = .inTag tag spot →
    r.openTags.head? = some tag.start ∧
      between? text tag.start r.pos = some ('<' :: tag.seen.reverse)
  tagName : ∀ span, r.tagNameSpan = some span →
    span.Stands text (fun _ _ => True) ∧ span.stop.toNat ≤ r.pos ∧
      ∃ tag, r.phase.tag? = some tag ∧
        span.start.toNat = tag.start + if tag.closing then 2 else 1
  attributeName : ∀ span, r.attributeNameSpan = some span →
    span.Stands text (fun _ _ => True) ∧ span.stop.toNat ≤ r.pos ∧ IsAttributeName (span.read text)
  attributeValue : ∀ span, r.attributeValueSpan = some span →
    span.Stands text (fun _ _ => True) ∧ span.stop.toNat ≤ r.pos
  /-- A quoted value stands behind its quote. -/
  quoted : ∀ tag name quote start span, r.phase = .inTag tag (.value name (some quote) start) →
    r.attributeValueSpan = some span →
      IsQuote quote ∧ quote ∉ span.read text ∧
        span.Stands text fun before _ => before.getLast? = some quote
  /-- A finished value stands between its quotes. -/
  finished : ∀ tag name value span, r.phase = .inTag tag (.afterValue name value) →
    r.attributeValueSpan = some span →
      ∃ quote, IsQuote quote ∧ quote ∉ span.read text ∧
        span.Stands text fun before after =>
          before.getLast? = some quote ∧ after.head? = some quote

section Sound

variable {r : Reading} {before rest : List Char}

theorem HasRead.opened (h : r.HasRead before) {start : Nat} (hstart : start ∈ r.openTags) :
    start < r.pos ∧ (dropBytes (before ++ rest) start).head? = some '<' := by
  obtain ⟨seen, front, rfl, rfl⟩ := h.marks start hstart
  rw [h.pos_eq, List.append_assoc, dropBytes_append]
  refine ⟨?_, rfl⟩
  have hsize : '<'.utf8Size = 1 := rfl
  rw [byteLength_append, byteLength_cons]
  omega

theorem HasRead.isPlace_pos (h : r.HasRead before) : isPlace before r.pos = true :=
  isPlace_iff.mpr ⟨before, [], by simp, h.pos_eq.symm⟩

theorem HasRead.tagName (h : r.HasRead before) (hsize : byteLength (before ++ rest) < 4294967296)
    {span : Span} (hspan : r.tagNameSpan = some span) :
    span.Stands (before ++ rest) (fun _ _ => True) ∧ span.stop.toNat ≤ r.pos ∧
      ∃ tag, r.phase.tag? = some tag ∧
        span.start.toNat = tag.start + if tag.closing then 2 else 1 := by
  obtain ⟨tag, htag, rfl⟩ : ∃ tag, r.phase.tag? = some tag ∧
      Span.ofOffsets tag.nameStart (tag.nameStop.getD r.pos) = span := by
    unfold tagNameSpan at hspan
    split at hspan
    · simp at hspan
    · simp at hspan
    · exact Option.map_eq_some_iff.mp hspan
  have hnamed := h.named tag htag
  have hstop : tag.nameStart ≤ tag.nameStop.getD r.pos ∧
      isPlace before (tag.nameStop.getD r.pos) = true := by
    cases hstop : tag.nameStop with
    | none => exact ⟨h.pos_eq ▸ le_of_isPlace hnamed.nameStart, h.isPlace_pos⟩
    | some stop => exact hnamed.nameStop stop hstop
  obtain ⟨hstands, hbound⟩ := Span.stands_of_isPlace hsize hnamed.nameStart hstop.2 hstop.1
  refine ⟨hstands, h.pos_eq ▸ hbound, tag, htag, ?_⟩
  have hsmall := le_of_isPlace hstop.2
  rw [byteLength_append] at hsize
  rw [(Span.ofOffsets_toNat _ _ (by omega) hstop.1).1, hnamed.behind]

private theorem HasRead.stands_of_enclose (h : r.HasRead before)
    (hsize : byteLength (before ++ rest) < 4294967296) {tag : Tag} {spot : Spot}
    (hphase : r.phase = .inTag tag spot) {bounds : Bounds}
    {P : List Char → List Char → List Char → Prop} (near : List Char → List Char → Prop)
    (R : List Char → Prop) (hbounds : bounds.Enclose (tag.start + 1) tag.seen.reverse P)
    (hP : ∀ front piece after, P front piece after →
      (∀ more more', near (more ++ front) (after ++ more')) ∧ R piece) :
    (Span.ofOffsets bounds.start bounds.stop).Stands (before ++ rest) near ∧
      (Span.ofOffsets bounds.start bounds.stop).stop.toNat ≤ r.pos ∧
      R ((Span.ofOffsets bounds.start bounds.stop).read (before ++ rest)) := by
  obtain ⟨front, hfront, hstart⟩ := h.since tag.start tag.seen (by rw [hphase]; rfl)
  have hbefore : before = (front ++ ['<']) ++ tag.seen.reverse := by simp [hfront]
  have hbase : byteLength (front ++ ['<']) = tag.start + 1 := by
    rw [byteLength_append, hstart]
    rfl
  rw [h.pos_eq, hbefore, List.append_assoc]
  rw [hbefore, List.append_assoc] at hsize
  rw [← hbase] at hbounds
  obtain ⟨hstands, hR, hstop⟩ := hbounds.stands hsize fun s piece after hpiece =>
    ⟨(hP s piece after hpiece).1 _ _, (hP s piece after hpiece).2⟩
  exact ⟨hstands, hstop, hR⟩

theorem HasRead.attributeName (h : r.HasRead before)
    (hsize : byteLength (before ++ rest) < 4294967296) {span : Span}
    (hspan : r.attributeNameSpan = some span) :
    span.Stands (before ++ rest) (fun _ _ => True) ∧ span.stop.toNat ≤ r.pos ∧
      IsAttributeName (span.read (before ++ rest)) := by
  obtain ⟨tag, spot, bounds, hphase, hname, rfl⟩ : ∃ tag spot bounds,
      r.phase = .inTag tag spot ∧ Bounds.EncloseName bounds (tag.start + 1) tag.seen.reverse ∧
        Span.ofOffsets bounds.start bounds.stop = span := by
    unfold attributeNameSpan at hspan
    split at hspan
    · next hphase =>
        have hname := (h.innermost _ _ hphase).2
        rw [Spot.Describes, ← h.pos_eq_inTag hphase] at hname
        exact ⟨_, _, _, hphase, hname, Option.some.inj hspan⟩
    · next hphase => exact ⟨_, _, _, hphase, (h.innermost _ _ hphase).2, Option.some.inj hspan⟩
    · next hphase => exact ⟨_, _, _, hphase, (h.innermost _ _ hphase).2.1, Option.some.inj hspan⟩
    · next hphase => exact ⟨_, _, _, hphase, (h.innermost _ _ hphase).2.1, Option.some.inj hspan⟩
    · simp at hspan
  exact h.stands_of_enclose hsize hphase _ _ hname fun _ _ _ hname => ⟨fun _ _ => trivial, hname⟩

theorem HasRead.value (h : r.HasRead before) (hsize : byteLength (before ++ rest) < 4294967296)
    {tag : Tag} {name : Bounds} {quote : Option Char} {start : Nat} {span : Span}
    (hphase : r.phase = .inTag tag (.value name quote start))
    (hspan : r.attributeValueSpan = some span) :
    span.Stands (before ++ rest) (fun _ _ => True) ∧ span.stop.toNat ≤ r.pos ∧
      ∀ q, quote = some q → IsQuote q ∧ q ∉ span.read (before ++ rest) ∧
        span.Stands (before ++ rest) fun before _ => before.getLast? = some q := by
  have hvalue := (h.innermost _ _ hphase).2.2
  rw [← h.pos_eq_inTag hphase] at hvalue
  obtain rfl : Span.ofOffsets start r.pos = span := by
    simpa [attributeValueSpan, hphase] using hspan
  obtain ⟨hplain, hstop, -⟩ :=
    h.stands_of_enclose hsize hphase (fun _ _ => True) (fun _ => True) hvalue (by simp)
  refine ⟨hplain, hstop, fun q hq => ?_⟩
  obtain ⟨hstands, -, hquote, hfree⟩ := h.stands_of_enclose hsize hphase
    (fun before _ => before.getLast? = some q) (fun piece => IsQuote q ∧ q ∉ piece) hvalue
    (fun front piece after hnear => by
      obtain ⟨hquote, hlast, hfree⟩ := hnear q hq
      exact ⟨by simp [hlast], hquote, hfree⟩)
  exact ⟨hquote, hfree, hstands⟩

theorem HasRead.afterValue (h : r.HasRead before)
    (hsize : byteLength (before ++ rest) < 4294967296) {tag : Tag} {name value : Bounds}
    {span : Span} (hphase : r.phase = .inTag tag (.afterValue name value))
    (hspan : r.attributeValueSpan = some span) :
    span.stop.toNat ≤ r.pos ∧ ∃ quote, IsQuote quote ∧ quote ∉ span.read (before ++ rest) ∧
      span.Stands (before ++ rest) fun before after =>
        before.getLast? = some quote ∧ after.head? = some quote := by
  obtain ⟨front, piece, after, htext, hstart, hend, quote, hquote, hlast, hfree, hhead⟩ :=
    (h.innermost _ _ hphase).2.2
  have hvalue : value.Enclose (tag.start + 1) tag.seen.reverse fun before piece after =>
      before.getLast? = some quote ∧ quote ∉ piece ∧ after.head? = some quote :=
    ⟨front, piece, after, htext, hstart, hend, hlast, hfree, hhead⟩
  obtain rfl : Span.ofOffsets value.start value.stop = span := by
    simpa [attributeValueSpan, hphase] using hspan
  obtain ⟨hstands, hstop, hread⟩ := h.stands_of_enclose hsize hphase
    (fun before after => before.getLast? = some quote ∧ after.head? = some quote)
    (fun piece => quote ∉ piece) hvalue
    (fun _ _ _ hnear => ⟨by simp [hnear.1, hnear.2.2], hnear.2.1⟩)
  exact ⟨hstop, quote, hquote, hread, hstands⟩

theorem HasRead.sound (h : r.HasRead before) (hsize : byteLength (before ++ rest) < 4294967296) :
    r.Sound (before ++ rest) where
  place := isPlace_append_left h.isPlace_pos rest
  increasing := List.pairwise_reverse.mpr h.decreasing
  opened _ hstart := h.opened hstart
  innermost tag spot hphase := by
    refine ⟨(h.innermost tag spot hphase).1, ?_⟩
    obtain ⟨front, hfront, hstart⟩ := h.since tag.start tag.seen (by rw [hphase]; rfl)
    rw [h.pos_eq, hfront, byteLength_append, List.append_assoc, ← hstart]
    exact between?_append front _ rest
  tagName _ hspan := h.tagName hsize hspan
  attributeName _ hspan := h.attributeName hsize hspan
  attributeValue span hspan := by
    have hvalue := hspan
    unfold attributeValueSpan at hvalue
    split at hvalue
    · next hphase =>
        obtain ⟨hstands, hstop, -⟩ := h.value hsize hphase hspan
        exact ⟨hstands, hstop⟩
    · next hphase =>
        obtain ⟨hstop, quote, -, -, hstands⟩ := h.afterValue hsize hphase hspan
        exact ⟨hstands.mono fun _ _ _ => trivial, hstop⟩
    · simp at hvalue
  quoted _ _ quote _ _ hphase hspan := (h.value hsize hphase hspan).2.2 quote rfl
  finished _ _ _ _ hphase hspan := (h.afterValue hsize hphase hspan).2

end Sound

/-- In a text of less than 4 GiB, whatever moves are made, the offsets that the reading holds and
the names and values that it tells are right. -/
theorem sound_of_moves (text : List Char) (hsize : byteLength text < 4294967296)
    (moves : List Move) : (moves.foldl (Move.apply text) {}).Sound text := by
  obtain ⟨before, rest, rfl, hread⟩ := hasRead_start.moves (List.nil_append text).symm moves
  exact hread.sound hsize

/-- The text `<a/><é b="<"` with a quote that is never closed. -/
private def unfinishedText : List Char :=
  ['<', 'a', '/', '>', '<', 'é', ' ', 'b', '=', '"', '<']

/-- From inside `<a` to the sibling `<é`, and on into the value of its attribute. -/
theorem sound_of_moves_unfinished :
    let r := [.advance 2, .seekSibling, .advance 12].foldl (Move.apply unfinishedText) {}
    r.openTags = [4] ∧ r.attributeNameSpan = some ⟨8, 9⟩ ∧
      r.attributeValueSpan = some ⟨11, 12⟩ ∧ r.Sound unfinishedText :=
  ⟨by decide, by decide, by decide, sound_of_moves unfinishedText (by decide) _⟩

end Reading

end XamlAssist.Document
