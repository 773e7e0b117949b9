import XamlAssist.Proofs.Document.NameReading
import XamlAssist.Proofs.Document.Steps

/-!
# Names of tags

Main statements: `tagName_plain_iff`, a name that a reading tells has the characters of a name
unless a comment or character data was read last, and `tagName_of_enclosingTagName`, wherever a
reading is inside a tag, the name it tells agrees with the one that is looked up from the `<` of the
tag on.
-/

namespace XamlAssist.Document

open Text

namespace Reading

variable {r : Reading} {tag : Tag} {spot : Spot}

/-! ### The name that is told -/

section Tell

variable {before rest name after : List Char}

private theorem tagNameSpan_eq (htag : r.phase.tag? = some tag)
    (hphase : r.phase.verbatim? = none) :
    r.tagNameSpan = some (.ofOffsets tag.nameStart (tag.nameStop.getD r.pos)) := by
  unfold tagNameSpan
  split
  · next heq => simp [heq, Phase.verbatim?] at hphase
  · next heq => simp [heq, Phase.verbatim?] at hphase
  · rw [htag, Option.map_some]

private theorem HasRead.told_eq (h : r.HasRead before) (htag : r.phase.tag? = some tag)
    (hphase : r.phase.verbatim? = none) (hreads : tag.Reads name after)
    (hstop : tag.nameStop.getD r.pos = tag.nameStart + byteLength name)
    (hstands : ∃ front more, before = front ++ '<' :: (tag.seen.reverse ++ more) ∧
      byteLength front = tag.start) (hsize : byteLength (before ++ rest) < 4294967296) :
    r.tagNameSpan.map (·.text (before ++ rest)) = some (String.ofList name) := by
  obtain ⟨front, more, hbefore, hstart⟩ := hstands
  have hsplit : before ++ rest =
      (front ++ '<' :: tag.lead) ++ (name ++ (after ++ (more ++ rest))) := by
    rw [hbefore, hreads.seen_eq]
    simp
  have hlength : tag.nameStart = byteLength (front ++ '<' :: tag.lead) := by
    have hopen : '<'.utf8Size = 1 := rfl
    rw [h.nameStart_eq htag, byteLength_append, byteLength_cons, hstart, hopen, Nat.add_assoc]
  rw [tagNameSpan_eq htag hphase, Option.map_some, hstop,
    Span.text_ofOffsets hsplit hsize hlength (by rw [hlength])]

private theorem TellsNames.told_inTag (h : r.TellsNames before) (hphase : r.phase = .inTag tag spot)
    (hsize : byteLength (before ++ rest) < 4294967296) :
    ∃ name after, tag.Reads name after ∧
      (after = [] → r.pos = tag.nameStart + byteLength name) ∧
      r.tagNameSpan.map (·.text (before ++ rest)) = some (String.ofList name) := by
  obtain ⟨⟨name, after, hreads, hin, hbehind⟩, -⟩ := h.inTag tag spot hphase
  have hstop : tag.nameStop.getD r.pos = tag.nameStart + byteLength name := by
    by_cases hspot : spot = .name
    · subst hspot
      obtain rfl := hin rfl
      rw [h.nameOpen tag hphase, Option.getD_none, h.pos_eq_inName hphase hreads]
    · rw [(hbehind hspot).2, Option.getD_some]
  obtain ⟨front, hfront, hstart⟩ := h.since tag.start tag.seen (by rw [hphase]; rfl)
  refine ⟨name, after, hreads, ?_, ?_⟩
  · rintro rfl
    exact h.pos_eq_inName hphase hreads
  · exact h.told_eq (by rw [hphase]; rfl) (by rw [hphase]; rfl) hreads hstop
      ⟨front, [], by simp [hfront], hstart⟩ hsize

private theorem TellsNames.told_ended (h : r.TellsNames before)
    (hphase : r.phase = .content (some tag))
    (hsize : byteLength (before ++ rest) < 4294967296) (hreads : tag.Reads name after)
    (hname : tag.HasName name)
    (hstands : ∃ front more, before = front ++ '<' :: (tag.seen.reverse ++ more) ∧
      byteLength front = tag.start) :
    r.tagNameSpan.map (·.text (before ++ rest)) = some (String.ofList name) :=
  h.told_eq (by rw [hphase]; rfl) (by rw [hphase]; rfl) hreads (by rw [hname, Option.getD_some])
    hstands hsize

private theorem TellsNames.told_behindVerbatim (h : r.TellsNames before)
    (hphase : r.phase = .content (some tag)) (hsize : byteLength (before ++ rest) < 4294967296)
    {kind : Verbatim} (hstop : tag.nameStop = none) (hstart : tag.nameStart = tag.start + 1)
    {front more : List Char} (hbefore : before = front ++ (kind.opener ++ more))
    (hfront : byteLength front = tag.start) :
    r.tagNameSpan.map (·.text (before ++ rest)) =
      some (String.ofList (kind.opener.tail ++ more)) := by
  have hopener : kind.opener = '<' :: kind.opener.tail := by cases kind <;> rfl
  have hbefore' : before = (front ++ ['<']) ++ (kind.opener.tail ++ more) := by
    rw [hbefore, hopener]
    simp
  have hlength : tag.nameStart = byteLength (front ++ ['<']) := by
    rw [hstart, byteLength_append, hfront]
    rfl
  have hpos : r.pos = byteLength (front ++ ['<']) + byteLength (kind.opener.tail ++ more) := by
    rw [h.pos_eq, hbefore', byteLength_append]
  rw [tagNameSpan_eq (by rw [hphase]; rfl) (by rw [hphase]; rfl), Option.map_some, hstop,
    Option.getD_none]
  exact congrArg some
    (Span.text_ofOffsets (by rw [hbefore', List.append_assoc]) hsize hlength hpos)

/-- The reading is between tags, and a comment or character data was read last. -/
def BehindVerbatim (r : Reading) (text : List Char) : Prop :=
  ∃ tag kind, r.phase = .content (some tag) ∧ OccursAt (Verbatim.opener kind) text tag.start

private theorem not_behindVerbatim_inTag (hphase : r.phase = .inTag tag spot) (text : List Char) :
    ¬ r.BehindVerbatim text := by
  rintro ⟨_, _, hcontent, -⟩
  exact Phase.noConfusion (hphase.symm.trans hcontent)

private theorem isPrefix_of_opener {kind : Verbatim} {s t : List Char}
    (h : kind.opener.tail <+: s ++ '>' :: t) : kind.opener.tail <+: s := by
  rcases List.prefix_or_prefix_of_prefix h (List.prefix_append s ('>' :: t)) with hle | ⟨u, hu⟩
  · exact hle
  · cases u with
    | nil => exact ⟨[], by rw [← hu, List.append_nil, List.append_nil]⟩
    | cons c u =>
        rw [← hu, List.prefix_append_right_inj, List.cons_prefix_cons] at h
        have hgt : '>' ∈ s ++ c :: u := by simp [h.1]
        exact absurd (kind.opener_plain (hu ▸ hgt)) (by decide)

private theorem not_behindVerbatim_ended (hphase : r.phase = .content (some tag))
    (hplain : tag.IsPlain)
    {front : List Char} (hstart : byteLength front = tag.start) (more : List Char) :
    ¬ r.BehindVerbatim (front ++ '<' :: (tag.seen.reverse ++ '>' :: more)) := by
  rintro ⟨other, kind, hcontent, hopener⟩
  obtain rfl := Option.some.inj (Phase.content.inj (hphase.symm.trans hcontent))
  rw [OccursAt, ← hstart, dropBytes_append] at hopener
  have htail : kind.opener.tail <+: tag.seen.reverse ++ '>' :: more := by
    cases kind <;> exact (List.cons_prefix_cons.mp hopener).2
  exact hplain kind (isPrefix_of_opener htail)

private theorem TellsNames.plain_iff (h : r.TellsNames before)
    (hsize : byteLength (before ++ rest) < 4294967296) {told : String}
    (htold : r.tagNameSpan.map (·.text (before ++ rest)) = some told) :
    (∀ c ∈ told.toList, endsTagName c = false) ↔ ¬ r.BehindVerbatim (before ++ rest) := by
  have hplain {name : List Char} (hname : some (String.ofList name) = some told)
      (hall : ∀ c ∈ name, endsTagName c = false) : ∀ c ∈ told.toList, endsTagName c = false := by
    rwa [← Option.some.inj hname, String.toList_ofList]
  cases hphase : r.phase with
  | comment tag body => exact absurd htold (by simp [tagNameSpan, hphase])
  | cdata tag body => exact absurd htold (by simp [tagNameSpan, hphase])
  | inTag tag spot =>
      obtain ⟨name, after, hreads, -, hname⟩ := h.told_inTag hphase hsize
      rw [hname] at htold
      exact iff_of_true (hplain htold hreads.plain) (not_behindVerbatim_inTag hphase _)
  | content last =>
      cases last with
      | none => exact absurd htold (by simp [tagNameSpan, hphase, Phase.tag?])
      | some tag =>
          cases h.ended tag hphase with
          | named name after hreads hname htag hstands =>
              obtain ⟨front, more, rfl, hfront⟩ := hstands
              rw [h.told_ended hphase hsize hreads hname ⟨front, _, rfl, hfront⟩] at htold
              refine iff_of_true (hplain htold hreads.plain) ?_
              simpa using not_behindVerbatim_ended hphase htag hfront (more ++ rest)
          | verbatim kind hstop hstart hstands =>
              obtain ⟨front, more, hbefore, hfront, hends⟩ := hstands
              rw [h.told_behindVerbatim hphase hsize hstop hstart hbefore hfront] at htold
              refine iff_of_false (fun hall => ?_) fun hnot => hnot ⟨tag, kind, hphase, ?_⟩
              · rw [← Option.some.inj htold, String.toList_ofList] at hall
                exact absurd (hall '>' (List.mem_append_right _ hends)) (by decide)
              · rw [OccursAt, hbefore, List.append_assoc, ← hfront, dropBytes_append,
                  List.append_assoc]
                exact List.prefix_append _ _

end Tell

/-- In a text of less than 4 GiB, a name that is told has no blank, bracket or slash in it, unless
the caret stands between tags and a comment or character data was read last. -/
theorem tagName_plain_iff (text : List Char) (hsize : byteLength text < 4294967296) (offset : Nat)
    (name : String) (h : (upTo text offset).tagNameSpan.map (·.text text) = some name) :
    (∀ c ∈ name.toList, endsTagName c = false) ↔ ¬ (upTo text offset).BehindVerbatim text := by
  obtain ⟨rest, htext, -⟩ := exists_takeBytes_append text offset
  have hiff := @TellsNames.plain_iff _ _ rest (tellsNames_upTo text offset)
  rw [← htext] at hiff
  exact hiff hsize h

/-- The text `<!-- a --><é`. -/
private def behindCommentText : List Char :=
  ['<', '!', '-', '-', ' ', 'a', ' ', '-', '-', '>', '<', 'é']

/-- The `<` of a tag behind the comment starts a name anew. -/
theorem tagName_plain_iff_newTag :
    byteLength behindCommentText < 4294967296 ∧
      (upTo behindCommentText 13).tagNameSpan.map (·.text behindCommentText) = some "é" ∧
      ((∀ c ∈ "é".toList, endsTagName c = false) ↔
        ¬ (upTo behindCommentText 13).BehindVerbatim behindCommentText) := by
  have hsize : byteLength behindCommentText < 4294967296 := by decide
  have htold : (upTo behindCommentText 13).tagNameSpan.map (·.text behindCommentText) =
      some "é" := by decide
  exact ⟨hsize, htold, tagName_plain_iff behindCommentText hsize 13 "é" htold⟩

/-- Right behind the comment all of it is told as the name of a tag. -/
theorem tagName_behindComment :
    byteLength behindCommentText < 4294967296 ∧
      (upTo behindCommentText 10).tagNameSpan.map (·.text behindCommentText) =
        some "!-- a -->" ∧
      ¬ ∀ c ∈ "!-- a -->".toList, endsTagName c = false :=
  ⟨by decide, by decide, fun hplain => absurd (hplain '>' (by decide)) (by decide)⟩

/-! ### The name that is looked up -/

section LookUp

variable {before rest : List Char}

private theorem takeWhile_tagName {name after : List Char}
    (hplain : ∀ c ∈ name, endsTagName c = false)
    (hends : ∀ c, after.head? = some c → endsTagName c = true) (more : List Char) :
    (name ++ (after ++ more)).takeWhile (fun c => !endsTagName c) =
      name ++ if after = [] then more.takeWhile fun c => !endsTagName c else [] := by
  rw [List.takeWhile_append_of_pos (by simpa using hplain)]
  cases after with
  | nil => simp
  | cons c after => simp [hends c rfl]

/-- The name that is looked up from the `<` of a tag begins with what is told inside the tag, and
goes on only if the reading is still in the name. -/
theorem TellsNames.lookup_eq (h : r.TellsNames before) (hphase : r.phase = .inTag tag spot)
    (hsize : byteLength (before ++ rest) < 4294967296)
    (hslash : (dropBytes (before ++ rest) (tag.start + 1)).head? ≠ some '/') :
    ∃ name more,
      (dropBytes (before ++ rest) (tag.start + 1)).takeWhile (fun c => !endsTagName c) =
        name ++ more ∧
      r.tagNameSpan.map (·.text (before ++ rest)) = some (String.ofList name) ∧
      (more ≠ [] → r.pos = tag.start + 1 + byteLength name) := by
  obtain ⟨name, after, hreads, hpos, htold⟩ := h.told_inTag hphase hsize
  obtain ⟨front, hfront, hstart⟩ := h.since tag.start tag.seen (by rw [hphase]; rfl)
  have hdrop : dropBytes (before ++ rest) (tag.start + 1) =
      tag.lead ++ (name ++ (after ++ rest)) := by
    have hsplit : before ++ rest = (front ++ ['<']) ++ (tag.lead ++ (name ++ (after ++ rest))) := by
      rw [hfront, hreads.seen_eq]
      simp
    have hlength : tag.start + 1 = byteLength (front ++ ['<']) := by
      rw [byteLength_append, hstart]
      rfl
    rw [hsplit, hlength, dropBytes_append]
  have hlead : tag.lead = [] := by
    cases hclosing : tag.closing with
    | false => simp [Tag.lead, hclosing]
    | true => exact absurd (by rw [hdrop]; simp [Tag.lead, hclosing]) hslash
  rw [hlead, List.nil_append] at hdrop
  refine ⟨name, _, by rw [hdrop, takeWhile_tagName hreads.plain hreads.ends], htold,
    fun hmore => ?_⟩
  have hafter : after = [] := by
    by_cases hafter : after = []
    · exact hafter
    · exact absurd (if_neg hafter) hmore
  rw [hpos hafter, h.nameStart_eq (by rw [hphase]; rfl), hlead, byteLength_nil, Nat.add_zero]

private theorem enclosingTagName_eq_some {text : List Char} {level start : Nat} {name : String}
    (hopen : r.openTags[level]? = some start)
    (hname : r.enclosingTagName text level = some name) :
    isPlace text (start + 1) = true ∧
      name.toList = (dropBytes text (start + 1)).takeWhile fun c => !endsTagName c := by
  unfold enclosingTagName at hname
  rw [hopen] at hname
  cases hsplit : splitAt? text (start + 1) with
  | none => simp [hsplit] at hname
  | some parts =>
      simp only [hsplit, Option.bind_eq_bind, Option.bind_some, Option.some.injEq] at hname
      refine ⟨by rw [isPlace, hsplit, Option.isSome_some], ?_⟩
      rw [← hname, String.toList_ofList, dropBytes, hsplit]

private theorem isPlace_takeWhile {text : List Char} {start : Nat} (h : isPlace text start = true)
    (p : Char → Bool) :
    isPlace text (start + byteLength ((dropBytes text start).takeWhile p)) = true := by
  obtain ⟨front, tail, rfl, rfl⟩ := isPlace_iff.mp h
  rw [dropBytes_append]
  refine isPlace_iff.mpr ⟨front ++ tail.takeWhile p, tail.dropWhile p, ?_, byteLength_append _ _⟩
  rw [List.append_assoc, List.takeWhile_append_dropWhile]

end LookUp

/-- In a text of less than 4 GiB, let `name` be looked up for a tag that is open somewhere and is no
closing tag. Wherever a reading is inside this tag, it tells the same name if it has come to the end
of the name, and otherwise a beginning of it. -/
theorem tagName_of_enclosingTagName (text : List Char) (hsize : byteLength text < 4294967296)
    (offset level start : Nat) (name : String)
    (hopen : (upTo text offset).openTags[level]? = some start)
    (hname : (upTo text offset).enclosingTagName text level = some name)
    (hslash : (dropBytes text (start + 1)).head? ≠ some '/') (caret : Nat)
    (hinside : (upTo text caret).phase.isInsideTag = true)
    (hinnermost : (upTo text caret).openTags.head? = some start) :
    (start + 1 + byteLength name.toList ≤ caret →
      (upTo text caret).tagNameSpan.map (·.text text) = some name) ∧
    (caret < start + 1 + byteLength name.toList →
      ∃ part, (upTo text caret).tagNameSpan.map (·.text text) = some part ∧
        part.toList <+: name.toList) := by
  obtain ⟨hplace, hlooked⟩ := enclosingTagName_eq_some hopen hname
  have htells := tellsNames_upTo text caret
  obtain ⟨tag, spot, hphase⟩ : ∃ tag spot, (upTo text caret).phase = .inTag tag spot :=
    (inTag_or_outside _).resolve_right (by simp [hinside])
  obtain rfl : tag.start = start :=
    Option.some.inj ((htells.innermost tag spot hphase).1.symm.trans hinnermost)
  obtain ⟨rest, htext, -⟩ := exists_takeBytes_append text caret
  have hlookup := @TellsNames.lookup_eq _ _ _ _ rest htells hphase
  rw [← htext] at hlookup
  obtain ⟨told, more, htake, htold, hpos⟩ := hlookup hsize hslash
  have hsplit : name.toList = told ++ more := hlooked.trans htake
  refine ⟨fun hcaret => ?_, fun _ => ⟨String.ofList told, htold, ?_⟩⟩
  · have hend := isPlace_takeWhile hplace fun c => !endsTagName c
    rw [← hlooked] at hend
    have hread := le_floorOffset hend hcaret
    have hmore : more = [] := by
      by_cases hmore : more = []
      · exact hmore
      · have hlength := byteLength_pos hmore
        rw [← upTo_pos, hpos hmore, hsplit, byteLength_append] at hread
        omega
    rw [htold, ← String.ofList_toList (s := name), hsplit, hmore, List.append_nil]
  · rw [String.toList_ofList, hsplit]
    exact List.prefix_append told more

/-- The text `<aé b><c`. -/
private def accentedText : List Char := ['<', 'a', 'é', ' ', 'b', '>', '<', 'c']

/-- With the tag of `c` under the caret, the name of the tag around it is looked up. A reading up to
the middle of its second character has come to the first one. -/
theorem tagName_of_enclosingTagName_accented :
    byteLength accentedText < 4294967296 ∧ (upTo accentedText 9).openTags[1]? = some 0 ∧
      (upTo accentedText 9).enclosingTagName accentedText 1 = some "aé" ∧
      (dropBytes accentedText 1).head? ≠ some '/' ∧
      (upTo accentedText 3).phase.isInsideTag = true ∧
      (upTo accentedText 3).openTags.head? = some 0 ∧
      ∃ part, (upTo accentedText 3).tagNameSpan.map (·.text accentedText) = some part ∧
        part.toList <+: "aé".toList := by
  have hsize : byteLength accentedText < 4294967296 := by decide
  have hopen : (upTo accentedText 9).openTags[1]? = some 0 := by decide
  have hname : (upTo accentedText 9).enclosingTagName accentedText 1 = some "aé" := by decide
  have hslash : (dropBytes accentedText 1).head? ≠ some '/' := by decide
  have hinside : (upTo accentedText 3).phase.isInsideTag = true := by decide
  have hinnermost : (upTo accentedText 3).openTags.head? = some 0 := by decide
  have htold := tagName_of_enclosingTagName accentedText hsize 9 1 0 "aé" hopen hname hslash 3
    hinside hinnermost
  exact ⟨hsize, hopen, hname, hslash, hinside, hinnermost, htold.2 (by decide)⟩

end Reading

end XamlAssist.Document
