import XamlAssist.Document.Context
import XamlAssist.Proofs.Document.Placement
import XamlAssist.Proofs.Document.Steps

/-!
# The tag that a found attribute belongs to

The search for an attribute of an open tag reads the text anew from the `<` of the tag on, without
the tags around it, and it ends where a tag ends. A `<` outside a value makes it go on in another
tag. If the open tag has been read to its end before the caret, there is no such `<`. The tag that
the caret is in may have one behind the caret; then the value that is found belongs to a tag behind
the caret.
-/

namespace XamlAssist.Document

open Text

namespace Reading

/-- The reading of `s`, which begins at the offset `start`, as the search for an attribute does
it. -/
def scan (start : Nat) (s : List Char) : Reading := ({ pos := start } : Reading).readAll s

private theorem scan_append (start : Nat) (s t : List Char) :
    scan start (s ++ t) = (scan start s).readAll t :=
  readAll_append _ s t

private theorem scan_pos (start : Nat) (s : List Char) :
    (scan start s).pos = start + byteLength s :=
  readAll_pos _ s

/-! ### The open tags have no part in the phase -/

private theorem phase_react (pos : Nat) (phase : Phase) (tags others : List Nat) (c : Char) :
    (react ⟨pos, phase, tags⟩ c).phase = (react ⟨pos, phase, others⟩ c).phase := by
  rcases phase with _ | _ | _ | ⟨_, _ | _ | _ | _ | ⟨_, _ | _, _⟩ | _⟩ <;>
    simp only [react, readSpot, readName, moveTo, closeTag, abandonTag, openTag,
      apply_ite Reading.phase]

private theorem phase_step_congr {r other : Reading} (hpos : r.pos = other.pos)
    (hphase : r.phase = other.phase) (c : Char) : (r.step c).phase = (other.step c).phase := by
  obtain ⟨pos, phase, tags⟩ := r
  obtain ⟨_, _, others⟩ := other
  dsimp only at hpos hphase
  subst hpos hphase
  exact phase_react pos phase tags others c

/-! ### The open tags of a reading -/

/-- The text holds a tag that starts at `start` and ends with a `>`. -/
def Ended (text : List Char) (start : Nat) : Prop :=
  ∃ front body rest, text = front ++ ('<' :: (body ++ '>' :: rest)) ∧ byteLength front = start ∧
    (∃ tag spot, (scan start ('<' :: body)).phase = .inTag tag spot ∧ tag.start = start) ∧
    (scan start ('<' :: (body ++ ['>']))).phase.isContent = true

theorem Ended.append {text : List Char} {start : Nat} (h : Ended text start) (more : List Char) :
    Ended (text ++ more) start := by
  obtain ⟨front, body, rest, htext, hscan⟩ := h
  exact ⟨front, body, rest ++ more, by simp [htext], hscan⟩

/-- The reading has read `text`. Scanned from its `<` on, the tag that it is in leads to the same
place, and all other open tags have ended. -/
structure Traced (r : Reading) (text : List Char) : Prop extends r.HasRead text where
  scanned : ∀ tag spot, r.phase = .inTag tag spot →
    (scan tag.start ('<' :: tag.seen.reverse)).phase = r.phase
  ended : ∀ start ∈ r.endedTags, Ended text start

variable {r : Reading} {text : List Char} {tag : Tag} {spot : Spot}

private theorem Traced.openTags_eq (h : r.Traced text) (hphase : r.phase = .inTag tag spot) :
    r.openTags = tag.start :: r.endedTags := by
  have hhead := (h.innermost tag spot hphase).1
  rw [endedTags_inTag hphase]
  cases htags : r.openTags with
  | nil => rw [htags] at hhead; exact absurd hhead (by simp)
  | cons start tags =>
      rw [htags] at hhead
      rw [Option.some.inj hhead]
      rfl

private theorem Traced.pos_scan (h : r.Traced text) (hphase : r.phase = .inTag tag spot) :
    (scan tag.start ('<' :: tag.seen.reverse)).pos = r.pos := by
  have hsize : '<'.utf8Size = 1 := rfl
  rw [scan_pos, byteLength_cons, hsize, h.pos_eq_inTag hphase, Nat.add_assoc]

private theorem Traced.phase_scan_step (h : r.Traced text) (hphase : r.phase = .inTag tag spot)
    (c : Char) :
    (scan tag.start ('<' :: (tag.seen.reverse ++ [c]))).phase = (r.step c).phase := by
  rw [← List.cons_append, scan_append]
  exact phase_step_congr (h.pos_scan hphase) (h.scanned tag spot hphase) c

private theorem Traced.ended_of_content (h : r.Traced text) (hphase : r.phase = .inTag tag spot)
    (hcontent : (r.step '>').phase.isContent = true) : Ended (text ++ ['>']) tag.start := by
  obtain ⟨front, htext, hfront⟩ := h.since tag.start tag.seen (by rw [hphase]; rfl)
  refine ⟨front, tag.seen.reverse, [], by simp [htext], hfront,
    ⟨tag, spot, (h.scanned tag spot hphase).trans hphase, rfl⟩, ?_⟩
  rw [h.phase_scan_step hphase]
  exact hcontent

theorem Traced.step (h : r.Traced text) (c : Char) : (r.step c).Traced (text ++ [c]) := by
  have hread := h.toHasRead.step c
  have hended : ∀ start ∈ r.endedTags, Ended (text ++ [c]) start := fun start hstart =>
    (h.ended start hstart).append [c]
  cases effect_step r c with
  | outside hbefore hafter htags =>
      refine ⟨hread, fun tag spot hphase => absurd hphase (ne_inTag hafter tag spot), ?_⟩
      rwa [endedTags_outside hafter, htags, ← endedTags_outside hbefore]
  | opens hc _ hafter htags =>
      refine ⟨hread, fun tag spot hphase => ?_, ?_⟩
      · rw [hafter] at hphase ⊢
        obtain ⟨rfl, rfl⟩ := Phase.inTag.inj hphase
        exact congrArg Reading.phase (step_open rfl)
      · rwa [endedTags_inTag hafter, htags]
  | @goesOn tag nextTag spot nextSpot hbefore hafter hnext _ _ htags =>
      refine ⟨hread, fun other place hphase => ?_, ?_⟩
      · obtain ⟨rfl, rfl⟩ := Phase.inTag.inj (hafter.symm.trans hphase)
        rw [hnext.start, hnext.seen, List.reverse_cons]
        exact h.phase_scan_step hbefore c
      · rwa [endedTags_inTag hafter, htags, ← endedTags_inTag hbefore]
  | @ends tag spot count hc hbefore hafter htags =>
      have houtside := isInsideTag_of_isContent hafter
      refine ⟨hread, fun tag spot hphase => absurd hphase (ne_inTag houtside tag spot),
        fun start hstart => ?_⟩
      rw [endedTags_outside houtside, htags] at hstart
      have hmem := List.mem_of_mem_drop hstart
      rw [h.openTags_eq hbefore] at hmem
      rcases List.mem_cons.mp hmem with rfl | hmem
      · subst hc
        exact h.ended_of_content hbefore hafter
      · exact hended start hmem
  | turns _ hafter _ htags =>
      refine ⟨hread, fun tag spot hphase => absurd hphase (ne_inTag hafter tag spot), ?_⟩
      rwa [endedTags_outside hafter, htags]

theorem Traced.readAll (h : r.Traced text) (s : List Char) : (r.readAll s).Traced (text ++ s) := by
  induction s generalizing r text with
  | nil => simpa using h
  | cons c s ih => simpa using ih (h.step c)

private theorem traced_start : ({} : Reading).Traced [] where
  toHasRead := hasRead_start
  scanned := by simp
  ended := by simp [endedTags, Phase.isInsideTag]

/-! ### What the search has found -/

variable {start : Nat} {name value : String}

/-- A search that finds a value ends at its closing quote, and no tag has ended before. -/
theorem exists_of_seekAttribute {s : List Char}
    (h : seekAttribute text start name r s = some value) :
    ∃ t c u, s = t ++ c :: u ∧
      closesValueOf (r.readAll t) ((r.readAll t).step c) text name = true ∧
      ((r.readAll t).step c).attributeValueSpan.map (·.text text) = some value ∧
      ∀ v d w, t = v ++ d :: w → start + 1 < ((r.readAll v).step d).pos →
        ((r.readAll v).step d).phase.isContent = false := by
  induction s generalizing r with
  | nil => exact absurd h (by simp [seekAttribute])
  | cons c s ih =>
      rw [seekAttribute] at h
      split at h
      · next hcloses => exact ⟨[], c, s, rfl, hcloses, h, by simp⟩
      split at h
      · exact absurd h (by simp)
      · next hgoes =>
          obtain ⟨t, d, u, rfl, hcloses, hvalue, hbefore⟩ := ih h
          refine ⟨c :: t, d, u, rfl, hcloses, hvalue, ?_⟩
          intro v e w hsplit hpast
          cases v with
          | nil =>
              obtain ⟨rfl, -⟩ := List.cons.inj hsplit
              rw [readAll_nil] at hpast ⊢
              simpa [hpast] using hgoes
          | cons e' v =>
              obtain ⟨rfl, hrest⟩ := List.cons.inj hsplit
              exact hbefore v e w hrest hpast

private theorem exists_of_closesValueOf {next : Reading}
    (h : closesValueOf r next text name = true) :
    ∃ tag nameBounds valueBounds, next.phase = .inTag tag (.afterValue nameBounds valueBounds) ∧
      (Span.ofOffsets nameBounds.start nameBounds.stop).text text = name ∧
      next.attributeValueSpan = some (.ofOffsets valueBounds.start valueBounds.stop) := by
  unfold closesValueOf at h
  split at h
  · next tag nameBounds valueBounds _ hafter =>
      refine ⟨tag, nameBounds, valueBounds, hafter, ?_, by rw [attributeValueSpan, hafter]⟩
      simpa [attributeNameSpan, hafter] using h
  · exact absurd h Bool.false_ne_true

private theorem between?_of_enclose {bounds : Bounds} {part front rest : List Char}
    {P : List Char → List Char → List Char → Prop} {piece : String}
    (h : bounds.Enclose (byteLength front) part P) (htext : text = front ++ (part ++ rest))
    (hsize : byteLength text < 4294967296)
    (hpiece : (Span.ofOffsets bounds.start bounds.stop).text text = piece) :
    between? text bounds.start bounds.stop = some piece.toList := by
  obtain ⟨before, chars, after, rfl, hstart, hstop, -⟩ := h
  have hsplit : text = (front ++ before) ++ (chars ++ (after ++ rest)) := by simp [htext]
  rw [← byteLength_append] at hstart hstop
  rw [Span.text_ofOffsets hsplit hsize hstart hstop] at hpiece
  rw [hsplit, hstart, hstop, between?_append, ← hpiece, String.toList_ofList]

/-- The search that reads `read` from the `<` at `start` on ends with it behind the value `value` of
the attribute `name` of the tag that starts at `owner`. -/
structure AttributeAt (text : List Char) (start : Nat) (read : List Char) (owner : Nat)
    (name value : String) : Prop where
  stands : ∃ front rest, text = front ++ (read ++ rest) ∧ byteLength front = start
  ends : ∃ tag nameBounds valueBounds,
    (scan start read).phase = .inTag tag (.afterValue nameBounds valueBounds) ∧
    tag.start = owner ∧ between? text nameBounds.start nameBounds.stop = some name.toList ∧
    between? text valueBounds.start valueBounds.stop = some value.toList

private theorem attributeAt_of_scan {front read rest : List Char} {tag : Tag}
    {nameBounds valueBounds : Bounds} (htext : text = front ++ (read ++ rest))
    (hsize : byteLength text < 4294967296)
    (hphase : (scan (byteLength front) read).phase =
      .inTag tag (.afterValue nameBounds valueBounds))
    (hname : (Span.ofOffsets nameBounds.start nameBounds.stop).text text = name)
    (hvalue : (Span.ofOffsets valueBounds.start valueBounds.stop).text text = value) :
    AttributeAt text (byteLength front) read tag.start name value := by
  have hread : (scan (byteLength front) read).HasRead (front ++ read) :=
    (hasRead_at front).readAll read
  obtain ⟨before, hbefore, hstart⟩ := hread.since tag.start tag.seen (by rw [hphase]; rfl)
  obtain ⟨hnameAt, hvalueAt⟩ := (hread.innermost tag _ hphase).2
  have hbase : tag.start + 1 = byteLength (before ++ ['<']) := by
    rw [byteLength_append, hstart]
    rfl
  have hsplit : text = (before ++ ['<']) ++ (tag.seen.reverse ++ rest) := by
    rw [htext, ← List.append_assoc, hbefore]
    simp
  rw [hbase] at hnameAt hvalueAt
  exact ⟨⟨front, rest, htext, rfl⟩, tag, nameBounds, valueBounds, hphase, rfl,
    between?_of_enclose hnameAt hsplit hsize hname,
    between?_of_enclose hvalueAt hsplit hsize hvalue⟩

private theorem exists_of_attributeOfTag {front rest : List Char} (htext : text = front ++ rest)
    (hstart : byteLength front = start) (hsize : byteLength text < 4294967296)
    (h : attributeOfTag text start name = some value) :
    ∃ read more tag nameBounds valueBounds, dropBytes text start = read ++ more ∧
      (scan start read).phase = .inTag tag (.afterValue nameBounds valueBounds) ∧
      AttributeAt text start read tag.start name value ∧
      ∀ s, s <+: read → start + 1 < (scan start s).pos →
        (scan start s).phase.isContent = false := by
  subst hstart
  have hdrop : dropBytes text (byteLength front) = rest := by rw [htext, dropBytes_append]
  rw [attributeOfTag, hdrop] at h
  rw [hdrop]
  obtain ⟨t, c, more, hsplit, hcloses, hvalue, hbefore⟩ := exists_of_seekAttribute h
  obtain ⟨tag, nameBounds, valueBounds, hphase, hname, hspan⟩ := exists_of_closesValueOf hcloses
  rw [hspan, Option.map_some, Option.some.injEq] at hvalue
  have hread : (({ pos := byteLength front } : Reading).readAll t).step c =
      scan (byteLength front) (t ++ [c]) := (scan_append _ t [c]).symm
  rw [hread] at hphase
  have hrest : rest = (t ++ [c]) ++ more := by simp [hsplit]
  refine ⟨t ++ [c], more, tag, nameBounds, valueBounds, hrest, hphase,
    attributeAt_of_scan (by rw [htext, hrest]) hsize hphase hname hvalue, ?_⟩
  intro s hs hpast
  rcases List.prefix_concat_iff.mp hs with rfl | ⟨w, hw⟩
  · rw [hphase]
    rfl
  · rcases List.eq_nil_or_concat s with rfl | ⟨v, d, rfl⟩
    · exact absurd hpast (by simp [scan])
    · rw [List.concat_eq_append] at hw hpast ⊢
      rw [scan_append] at hpast ⊢
      exact hbefore v d w (by rw [← hw]; simp) hpast

/-! ### The owner of what is found -/

section Owner

variable {read done more : List Char} {current owner : Tag} {spot ownerSpot : Spot}

private theorem scan_ne_nil (hphase : (scan start read).phase = .inTag owner ownerSpot) :
    read ≠ [] := by
  rintro rfl
  exact Phase.noConfusion hphase

private theorem owner_of_isPrefix (hcurrent : (scan start done).phase = .inTag current spot)
    (hstart : current.start = start) (hread : read <+: done)
    (hphase : (scan start read).phase = .inTag owner ownerSpot) : owner.start = start := by
  obtain ⟨v, rfl⟩ := hread
  have hpast : current.start < (scan start read).pos := by
    have hpos := byteLength_pos (scan_ne_nil hphase)
    rw [scan_pos]
    omega
  rw [scan_append] at hcurrent
  obtain ⟨before, place, hbefore, hsame, -⟩ := inTag_of_readAll hcurrent hpast
  obtain ⟨rfl, -⟩ := Phase.inTag.inj (hphase.symm.trans hbefore)
  exact hsame.trans hstart

private theorem owner_of_prefix_read (hcurrent : (scan start done).phase = .inTag current spot)
    (hstart : current.start = start) (hdone : done <+: read)
    (hphase : (scan start read).phase = .inTag owner ownerSpot) :
    owner.start = start ∨ (scan start done).pos ≤ owner.start := by
  obtain ⟨v, rfl⟩ := hdone
  rw [scan_append] at hphase
  by_cases hpast : owner.start < (scan start done).pos
  · obtain ⟨before, place, hbefore, hsame, -⟩ := inTag_of_readAll hphase hpast
    obtain ⟨rfl, -⟩ := Phase.inTag.inj (hcurrent.symm.trans hbefore)
    exact .inl (hsame.symm.trans hstart)
  · exact .inr (Nat.le_of_not_lt hpast)

private theorem Ended.owner_eq (h : Ended text start) (hdrop : dropBytes text start = read ++ more)
    (hphase : (scan start read).phase = .inTag owner ownerSpot)
    (hbefore : ∀ s, s <+: read → start + 1 < (scan start s).pos →
      (scan start s).phase.isContent = false) : owner.start = start := by
  obtain ⟨front, body, rest, htext, rfl, ⟨current, spot, hcurrent, hstart⟩, hcontent⟩ := h
  rw [htext, dropBytes_append] at hdrop
  have hread : read <+: '<' :: body := by
    have hwhole : '<' :: (body ++ ['>']) <+: read ++ more := ⟨rest, by rw [← hdrop]; simp⟩
    rcases List.prefix_or_prefix_of_prefix (List.prefix_append read more) hwhole with hle | hle
    · rw [← List.cons_append, List.prefix_concat_iff] at hle
      refine hle.resolve_left ?_
      rintro rfl
      exact ne_inTag (isInsideTag_of_isContent hcontent) owner ownerSpot hphase
    · have hpast : byteLength front + 1 <
          (scan (byteLength front) ('<' :: (body ++ ['>']))).pos := by
        have hopen : '<'.utf8Size = 1 := rfl
        have hclose : '>'.utf8Size = 1 := rfl
        simp only [scan_pos, byteLength_cons, byteLength_append, byteLength_nil]
        omega
      exact absurd hcontent (by rw [hbefore _ hle hpast]; exact Bool.false_ne_true)
  exact owner_of_isPrefix hcurrent hstart hread hphase

/-- What is found for an open tag belongs to it, or it is the tag that the reading is in and what is
found belongs to a tag behind the reading. -/
theorem Traced.owner_cases {before rest : List Char} (h : r.Traced before)
    (htext : text = before ++ rest) (hmem : start ∈ r.openTags)
    (hdrop : dropBytes text start = read ++ more)
    (hphase : (scan start read).phase = .inTag owner ownerSpot)
    (hbefore : ∀ s, s <+: read → start + 1 < (scan start s).pos →
      (scan start s).phase.isContent = false) :
    owner.start = start ∨
      r.pos ≤ owner.start ∧ ∃ tag spot, r.phase = .inTag tag spot ∧ tag.start = start := by
  have hended : start ∈ r.endedTags → owner.start = start := fun hmem =>
    Ended.owner_eq (htext ▸ (h.ended start hmem).append rest) hdrop hphase hbefore
  rcases inTag_or_outside r.phase with ⟨current, spot, hcurrent⟩ | houtside
  · rw [h.openTags_eq hcurrent] at hmem
    rcases List.mem_cons.mp hmem with rfl | hmem
    · obtain ⟨front, hfront, hstart⟩ := h.since _ _ (by rw [hcurrent]; rfl)
      have hscanned := (h.scanned current spot hcurrent).trans hcurrent
      have hdone : '<' :: current.seen.reverse <+: read ++ more := by
        rw [← hdrop, htext, hfront, List.append_assoc, ← hstart, dropBytes_append]
        exact List.prefix_append _ _
      rcases List.prefix_or_prefix_of_prefix (List.prefix_append read more) hdone with hle | hle
      · exact .inl (owner_of_isPrefix hscanned rfl hle hphase)
      · refine (owner_of_prefix_read hscanned rfl hle hphase).imp_right fun hpos => ?_
        rw [h.pos_scan hcurrent] at hpos
        exact ⟨hpos, current, spot, hcurrent, rfl⟩
    · exact .inl (hended hmem)
  · rw [← endedTags_outside houtside] at hmem
    exact .inl (hended hmem)

/-- The tag that a reading is in was opened behind an earlier place, by a `<` outside a value, or it
began before this place. -/
theorem exists_opening {s : List Char} (h : r.HasRead text)
    (hphase : (r.readAll s).phase = .inTag owner ownerSpot) (hstart : r.pos ≤ owner.start) :
    ∃ t u, s = t ++ '<' :: u ∧ (r.readAll t).pos = owner.start ∧
      ∀ tag spot, (r.readAll t).phase = .inTag tag spot → spot.isValue = false := by
  induction s generalizing r text with
  | nil =>
      have hpos := h.pos_eq_inTag hphase
      rw [readAll_nil] at hphase
      omega
  | cons c s ih =>
      by_cases hlater : (r.step c).pos ≤ owner.start
      · obtain ⟨t, u, hs, hpos, hvalue⟩ := ih (h.step c) hphase hlater
        exact ⟨c :: t, u, by rw [hs]; rfl, hpos, hvalue⟩
      · obtain ⟨opened, place, hopened, hsame, -⟩ :=
          inTag_of_readAll (r := r.step c) hphase (Nat.lt_of_not_le hlater)
        cases effect_step r c with
        | outside _ hafter _ => exact absurd hopened (ne_inTag hafter opened place)
        | opens hc hvalue hafter _ =>
            obtain ⟨rfl, -⟩ := Phase.inTag.inj (hopened.symm.trans hafter)
            exact ⟨[], s, by rw [hc]; rfl, hsame, hvalue⟩
        | goesOn hbefore hafter hnext _ _ _ =>
            obtain ⟨rfl, -⟩ := Phase.inTag.inj (hopened.symm.trans hafter)
            have hpos := h.pos_eq_inTag hbefore
            have hstart' := hnext.start
            omega
        | ends _ _ _ hafter _ =>
            exact absurd hopened (ne_inTag (isInsideTag_of_isContent hafter) opened place)
        | turns _ hafter _ _ => exact absurd hopened (ne_inTag hafter opened place)

/-- Behind its first character, the scan meets a `<` only inside values. -/
def OpensNoOther (start : Nat) (read : List Char) : Prop :=
  ∀ t u, read = t ++ '<' :: u → t ≠ [] →
    ∃ tag spot, (scan start t).phase = .inTag tag spot ∧ spot.isValue = true

private theorem owner_eq_iff (hread : ({ pos := start } : Reading).HasRead text)
    (hphase : (scan start read).phase = .inTag owner ownerSpot) :
    owner.start = start ↔ OpensNoOther start read := by
  constructor
  · rintro hstart t u rfl ht
    have hpast : start < (scan start t).pos := by
      have hpos := byteLength_pos ht
      rw [scan_pos]
      omega
    rw [scan_append, readAll_cons] at hphase
    obtain ⟨before, place, hbefore, hsame, -⟩ :=
      inTag_of_readAll hphase (Nat.lt_add_right _ (hstart ▸ hpast))
    obtain ⟨tag, spot, hcurrent, -, -, hvalue, -⟩ := inTag_of_step hbefore (by omega)
    exact ⟨tag, spot, hcurrent, hvalue rfl⟩
  · intro hopens
    by_cases hstart : start ≤ owner.start
    · obtain ⟨t, u, hsplit, hpos, hvalue⟩ := exists_opening hread hphase hstart
      by_cases ht : t = []
      · rw [← hpos, ht]
        rfl
      · obtain ⟨tag, spot, hcurrent, hin⟩ := hopens t u hsplit ht
        rw [hvalue tag spot hcurrent] at hin
        exact Bool.noConfusion hin
    · obtain ⟨_, _, hcontent, -⟩ := inTag_of_readAll hphase (Nat.lt_of_not_le hstart)
      exact Phase.noConfusion hcontent

end Owner

/-- Whatever the text, the value that the lookup gives is the value of an attribute of the name, in
the scan of one of the open tags. It belongs to this tag if and only if the scan meets no `<`
outside a value; and if it belongs to another one, the tag is the one that the caret is in and the
owner starts at the caret or behind it. -/
theorem owner_ancestorAttribute (text : List Char) (hsize : byteLength text < 4294967296)
    (offset : Nat) (name value : String) (levels : Nat)
    (h : (upTo text offset).ancestorAttribute text name levels = some value) :
    ∃ start ∈ (upTo text offset).openTags.take levels, ∃ read owner,
      AttributeAt text start read owner name value ∧ (owner = start ↔ OpensNoOther start read) ∧
      (owner ≠ start → (upTo text offset).pos ≤ owner ∧
        ∃ tag spot, (upTo text offset).phase = .inTag tag spot ∧ tag.start = start) := by
  obtain ⟨start, hmem, hfound⟩ := List.exists_of_findSome?_eq_some h
  obtain ⟨rest, htext, -⟩ := exists_takeBytes_append text offset
  have htraced : (upTo text offset).Traced (takeBytes text offset) := by
    rw [upTo_eq_readAll]
    exact traced_start.readAll _
  have hopen := List.mem_of_mem_take hmem
  obtain ⟨seen, front, hfront, hstart⟩ := htraced.marks start hopen
  obtain ⟨read, more, tag, nameBounds, valueBounds, hdrop, hphase, hat, hbefore⟩ :=
    exists_of_attributeOfTag (htext.trans (by rw [hfront, List.append_assoc])) hstart hsize hfound
  refine ⟨start, hmem, read, tag.start, hat, ?_, fun hne => ?_⟩
  · exact owner_eq_iff (hstart ▸ hasRead_at front) hphase
  · exact (htraced.owner_cases htext hopen hdrop hphase hbefore).resolve_left hne

section Example

/-- The text `<a x="<"><b `. -/
private def quotedText : List Char := ['<', 'a', ' ', 'x', '=', '"', '<', '"', '>', '<', 'b', ' ']

/-- The value of `x` is found in the tag of `a`, as the one of `b` has none. -/
theorem owner_ancestorAttribute_quoted :
    byteLength quotedText < 4294967296 ∧
      (upTo quotedText 12).ancestorAttribute quotedText "x" 2 = some "<" ∧
      ∃ start ∈ (upTo quotedText 12).openTags.take 2, ∃ read owner,
        AttributeAt quotedText start read owner "x" "<" ∧
        (owner = start ↔ OpensNoOther start read) ∧
        (owner ≠ start → (upTo quotedText 12).pos ≤ owner ∧
          ∃ tag spot, (upTo quotedText 12).phase = .inTag tag spot ∧ tag.start = start) := by
  have hsize : byteLength quotedText < 4294967296 := by decide
  have hfound : (upTo quotedText 12).ancestorAttribute quotedText "x" 2 = some "<" := by decide
  exact ⟨hsize, hfound, owner_ancestorAttribute quotedText hsize 12 "x" "<" 2 hfound⟩

/-- The text `<a <b x="1">`. -/
private def abandonedText : List Char :=
  ['<', 'a', ' ', '<', 'b', ' ', 'x', '=', '"', '1', '"', '>']

/-- The tag in which a value has just ended. -/
private def ownerOfValue? : Phase → Option Nat
  | .inTag tag (.afterValue ..) => some tag.start
  | _ => none

private theorem ownerOfValue?_abandoned {read rest : List Char}
    (h : abandonedText = read ++ rest) : ownerOfValue? (scan 0 read).phase ≠ some 0 := by
  have hall : (List.range 13).all (fun n =>
      ownerOfValue? (scan 0 (abandonedText.take n)).phase != some 0) = true := by decide
  have hlength : read.length < 13 := by
    have hwhole := congrArg List.length h
    rw [List.length_append] at hwhole
    have htext : abandonedText.length = 12 := rfl
    omega
  have hread := List.all_eq_true.mp hall read.length (List.mem_range.mpr hlength)
  rw [h, List.take_left] at hread
  simpa using hread

/-- Behind the name of the unfinished tag `a`, the only open tag, the lookup gives the value of the
tag `b`, which is not open; the scan of `a` finds no such value of its own. -/
theorem ancestorAttribute_abandoned :
    (upTo abandonedText 3).openTags = [0] ∧
      (upTo abandonedText 3).ancestorAttribute abandonedText "x" 1 = some "1" ∧
      ¬ ∃ start ∈ (upTo abandonedText 3).openTags, ∃ read,
        AttributeAt abandonedText start read start "x" "1" := by
  have hopen : (upTo abandonedText 3).openTags = [0] := by decide
  refine ⟨hopen, by decide, ?_⟩
  rintro ⟨start, hmem, read, ⟨front, rest, htext, hfront⟩, tag, nameBounds, valueBounds, hphase,
    howner, -⟩
  rw [hopen, List.mem_singleton] at hmem
  subst hmem
  have hnil : front = [] := by
    cases front with
    | nil => rfl
    | cons c front => exact absurd hfront (by have hc := c.utf8Size_pos; simp; omega)
  rw [hnil, List.nil_append] at htext
  refine ownerOfValue?_abandoned htext ?_
  rw [hphase, ownerOfValue?, howner]

end Example

end Reading

end XamlAssist.Document
