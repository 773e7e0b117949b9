import XamlAssist.Document.Scan
import XamlAssist.Proofs.Document.OpenElements
import XamlAssist.Proofs.Document.Placement

/-!
# Scanning a document and reading it

A scan looks at the bytes of the whole text, at places that are given by offsets. It looks at none
behind the byte that it passes, as the `<` of the tag that it is inside of has been passed before.

What it finds there is what a reading has kept of the characters before: the openers and terminators
that end at a byte, the byte before a `>` and the byte behind the `<` of a tag. So a scan and a
reading tell the same of every place (`snapshot_upTo`). A character of several bytes works by its
first byte; the bytes behind it are passed without effect.
-/

namespace XamlAssist.Document

open Text

namespace Scan

variable {s : Scan} {bytes other : List UInt8} {i : Nat} {c : Char}

/-! ### What a step looks at -/

/-- Inside a tag, the `<` of the tag has been passed. -/
def IsBehindOpening (s : Scan) : Prop := s.region.isInsideTag = true → s.tagOpen < s.pos

private theorem isOpenedBy_eq_of_take_eq (h : bytes.take (i + 1) = other.take (i + 1))
    (mark : List Char) : s.isOpenedBy bytes i mark = s.isOpenedBy other i mark := by
  rw [isOpenedBy, isOpenedBy, endsWithAt, endsWithAt, h]

private theorem isEndedBy_eq_of_take_eq (h : bytes.take (i + 1) = other.take (i + 1))
    (start mark : List Char) : s.isEndedBy bytes i start mark = s.isEndedBy other i start mark := by
  rw [isEndedBy, isEndedBy, endsWithAt, endsWithAt, h]

private theorem closeTag_eq_of_take_eq (h : bytes.take (i + 1) = other.take (i + 1))
    (hopen : s.tagOpen < i) : s.closeTag bytes i = s.closeTag other i := by
  simp only [closeTag, charAt?_eq_of_take_eq h (Nat.sub_le i 1), charAt?_eq_of_take_eq h hopen]

private theorem passName_eq_of_take_eq (h : bytes.take (i + 1) = other.take (i + 1))
    (hopen : s.tagOpen < i) : s.passName bytes i c = s.passName other i c := by
  have hclose : { s with nameStop := some i }.closeTag bytes i =
      { s with nameStop := some i }.closeTag other i :=
    closeTag_eq_of_take_eq h hopen
  rw [passName, passName, isOpenedBy_eq_of_take_eq h, isOpenedBy_eq_of_take_eq h, hclose]

private theorem passValue_eq_of_take_eq (h : bytes.take (i + 1) = other.take (i + 1))
    (hopen : s.tagOpen < i) : s.passValue bytes i c = s.passValue other i c := by
  have hclose : { s with valueStop := some i }.closeTag bytes i =
      { s with valueStop := some i }.closeTag other i :=
    closeTag_eq_of_take_eq h hopen
  simp only [passValue, hclose]

private theorem pass_eq_of_take_eq (h : bytes.take (i + 1) = other.take (i + 1))
    (hopen : s.region.isInsideTag = true → s.tagOpen < i) :
    s.pass bytes i c = s.pass other i c := by
  cases hregion : s.region with
  | content => simp only [pass, hregion]
  | comment | cdata => simp only [pass, hregion, isEndedBy_eq_of_take_eq h]
  | tagName => simp only [pass, hregion, passName_eq_of_take_eq h (hopen (by rw [hregion]; rfl))]
  | value => simp only [pass, hregion, passValue_eq_of_take_eq h (hopen (by rw [hregion]; rfl))]
  | gap | beforeValue | afterValue =>
      simp only [pass, hregion, closeTag_eq_of_take_eq h (hopen (by rw [hregion]; rfl))]
  | attributeName =>
      have hclose : (s.endAttribute i).closeTag bytes i = (s.endAttribute i).closeTag other i :=
        closeTag_eq_of_take_eq h (hopen (by rw [hregion]; rfl))
      simp only [pass, hregion, hclose]

private theorem tagOpen_pass (s : Scan) (bytes : List UInt8) (i : Nat) (c : Char) :
    (s.pass bytes i c).tagOpen = i ∨
      (s.pass bytes i c).tagOpen = s.tagOpen ∧
        ((s.pass bytes i c).region.isInsideTag = true → s.region.isInsideTag = true) := by
  cases hregion : s.region with
  | content | comment | cdata | gap | attributeName | beforeValue | afterValue =>
      simp only [pass, hregion]
      repeat' split
      all_goals
        simp [openTag, abandonTag, resetAttribute, startAttribute, leaveAttribute, endAttribute,
          closeTag, hregion, Region.isInsideTag]
  | tagName =>
      simp only [pass, hregion, passName]
      repeat' split
      all_goals
        simp [openTag, abandonTag, resetAttribute, closeTag, hregion, Region.isInsideTag]
  | value =>
      simp only [pass, hregion, passValue]
      repeat' split
      all_goals
        simp [leaveAttribute, resetAttribute, closeTag, hregion, Region.isInsideTag]

theorem isBehindOpening_start : ({} : Scan).IsBehindOpening := fun h => absurd h (by decide)

theorem looksBack_scanner : scanner.LooksBack IsBehindOpening where
  inv_step bytes s h := by
    show (step bytes s).IsBehindOpening
    rw [step]
    split
    · exact h
    · next c _ =>
        intro hinside
        show (s.pass bytes s.pos c).tagOpen < s.pos + 1
        rcases tagOpen_pass s bytes s.pos c with hopen | ⟨hsame, hbefore⟩
        · rw [hopen]
          exact Nat.lt_succ_self s.pos
        · rw [hsame]
          exact Nat.lt_succ_of_lt (h (hbefore hinside))
  step_eq bytes other s h hbytes := by
    show step bytes s = step other s
    have hpass (c : Char) : s.pass bytes s.pos c = s.pass other s.pos c :=
      pass_eq_of_take_eq hbytes h
    rw [step, step, charAt?_eq_of_take_eq hbytes (Nat.le_refl s.pos)]
    split
    · rfl
    · rw [hpass]

/-! ### What is found in the bytes -/

section Bytes

variable {read rest : List Char}

private theorem endsWithAt_of_high {d : Char} (hbyte : charAt? bytes i = some d)
    (hd : 0x80 ≤ d.toNat) (mark : List Char) (hmark : mark.all (·.toNat < 0x80) = true)
    (hne : mark ≠ []) : endsWithAt bytes i mark = false := by
  obtain ⟨b, hget, rfl⟩ := Option.map_eq_some_iff.mp hbyte
  obtain ⟨hi, hget⟩ := List.getElem?_eq_some_iff.mp hget
  rw [endsWithAt, ← Bool.not_eq_true, List.isSuffixOf_iff_suffix,
    List.take_succ_eq_append_getElem hi,
    hget]
  rintro ⟨front, hfront⟩
  obtain ⟨init, a, rfl⟩ := (List.eq_nil_or_concat mark).resolve_left hne
  rw [List.concat_eq_append] at hmark hfront
  have ha : a.toNat < 0x80 := by simpa using (List.all_eq_true.mp hmark) a (by simp)
  rw [utf8_append, utf8_cons, utf8_nil, List.append_nil, utf8EncodeChar_of_lt ha,
    ← List.append_assoc] at hfront
  obtain ⟨-, hlast⟩ := List.append_inj' hfront rfl
  rw [toNat_ofUInt8, ← (List.cons.inj hlast).1] at hd
  simp at hd
  omega

private theorem endsWithAt_iff {mark : List Char} (hmark : mark.all (·.toNat < 0x80) = true)
    (hne : mark ≠ []) :
    endsWithAt (utf8 (read ++ c :: rest)) (byteLength read) mark = true ↔ mark <:+ read ++ [c] := by
  by_cases hc : c.toNat < 0x80
  · have hlength : byteLength read + 1 = byteLength (read ++ [c]) := by
      rw [byteLength_append, byteLength_cons, byteLength_nil, utf8Size_of_lt hc]
    have htext : read ++ c :: rest = (read ++ [c]) ++ rest := by simp
    rw [endsWithAt, List.isSuffixOf_iff_suffix, hlength, htext, take_utf8_append,
      utf8_isSuffix_iff hmark]
  · have hfalse := endsWithAt_of_high (charAt?_lead read rest c)
      (le_leadChar (Nat.le_of_not_lt hc)) mark hmark hne
    rw [hfalse]
    refine ⟨fun h => absurd h (by simp), fun h => ?_⟩
    rcases List.suffix_concat_iff.mp h with hnil | ⟨init, rfl, -⟩
    · exact absurd hnil hne
    · exact absurd (by simpa using (List.all_eq_true.mp hmark) c (by simp)) hc

private theorem eq_of_append_eq {front front' tail tail' : List Char}
    (h : front ++ tail = front' ++ tail') (hlength : byteLength tail = byteLength tail') :
    tail = tail' := by
  have hboth := congrArg byteLength h
  rw [byteLength_append, byteLength_append, hlength] at hboth
  rw [← dropBytes_append front tail, h, Nat.add_right_cancel hboth, dropBytes_append]

private theorem mem_of_isSuffix_concat {mark : List Char} (h : mark <:+ read ++ [c])
    (hne : mark ≠ []) : c ∈ mark := by
  rcases List.suffix_concat_iff.mp h with hnil | ⟨init, rfl, -⟩
  · exact absurd hnil hne
  · exact List.mem_append_right init (List.mem_singleton_self c)

/-- A construct is opened by a mark exactly if the reading has seen the rest of the mark since the
`<`. -/
private theorem isOpenedBy_iff {seen opener : List Char} (hseen : SeenSince read s.tagOpen seen)
    (hopener : opener.all (·.toNat < 0x80) = true) :
    s.isOpenedBy (utf8 (read ++ c :: rest)) (byteLength read) ('<' :: opener.reverse) = true ↔
      c :: seen = opener := by
  have hmark : ('<' :: opener.reverse).all (·.toNat < 0x80) = true := by simpa using hopener
  have hangle : '<'.utf8Size = 1 := rfl
  have hsize := hseen.byteLength_eq
  rw [byteLength_reverse] at hsize
  rw [isOpenedBy, Bool.and_eq_true, endsWithAt_iff hmark (List.cons_ne_nil _ _), beq_iff_eq,
    byteLength_cons, byteLength_reverse, hangle, hsize]
  constructor
  · rintro ⟨hsuffix, hlength⟩
    have hc := utf8Size_of_lt (of_decide_eq_true (List.all_eq_true.mp hmark c
      (mem_of_isSuffix_concat hsuffix (List.cons_ne_nil _ _))))
    obtain ⟨front', hmark'⟩ := hsuffix
    obtain ⟨front, rfl, -⟩ := hseen
    have htext : front ++ '<' :: seen.reverse ++ [c] = front ++ '<' :: (c :: seen).reverse := by
      simp
    have hsame : '<' :: opener.reverse = '<' :: (c :: seen).reverse := by
      apply eq_of_append_eq (hmark'.trans htext)
      rw [byteLength_cons, byteLength_cons, byteLength_reverse, byteLength_reverse,
        byteLength_cons]
      omega
    exact (List.reverse_inj.mp (List.cons.inj hsame).2).symm
  · rintro rfl
    have hc := utf8Size_of_lt (of_decide_eq_true (List.all_eq_true.mp hopener c List.mem_cons_self))
    obtain ⟨front, rfl, -⟩ := hseen
    refine ⟨⟨front, by simp⟩, ?_⟩
    rw [byteLength_cons]
    omega

/-- The terminator of a construct ends the bytes exactly if it ends the body that the reading
keeps. -/
private theorem isEndedBy_iff {body opener : List Char} {x y z : Char}
    (hseen : SeenSince read s.tagOpen (body ++ opener))
    (hmark : [x, y, z].all (·.toNat < 0x80) = true) :
    s.isEndedBy (utf8 (read ++ c :: rest)) (byteLength read) ('<' :: opener.reverse) [x, y, z] =
        true ↔ [z, y, x] <+: c :: body := by
  have hangle : '<'.utf8Size = 1 := rfl
  have hsize := hseen.byteLength_eq
  rw [byteLength_reverse, byteLength_append] at hsize
  have htwo : byteLength [x, y] = 2 := by
    simp only [List.all_cons, Bool.and_eq_true, decide_eq_true_eq] at hmark
    rw [byteLength_cons, byteLength_cons, utf8Size_of_lt hmark.1, utf8Size_of_lt hmark.2.1]
    rfl
  rw [isEndedBy, Bool.and_eq_true, endsWithAt_iff hmark (List.cons_ne_nil _ _), decide_eq_true_eq,
    byteLength_cons, byteLength_reverse, hangle, hsize]
  obtain ⟨front, rfl, -⟩ := hseen
  constructor
  · rintro ⟨hsuffix, hlength⟩
    obtain ⟨init, hinit, hxy⟩ :=
      (List.suffix_concat_iff.mp hsuffix).resolve_left (List.cons_ne_nil _ _)
    obtain ⟨rfl, hz⟩ : [x, y] = init ∧ [z] = [c] :=
      List.append_inj' ((show [x, y] ++ [z] = [x, y, z] from rfl).trans hinit) rfl
    have hbody : body.reverse <:+ front ++ '<' :: (body ++ opener).reverse :=
      ⟨front ++ '<' :: opener.reverse, by simp⟩
    have hends : [x, y] <:+ body.reverse := by
      rcases List.suffix_or_suffix_of_suffix hxy hbody with h | h
      · exact h
      · obtain ⟨front', hfront'⟩ := h
        have hboth := congrArg byteLength hfront'
        rw [byteLength_append, byteLength_reverse, htwo] at hboth
        cases front' with
        | nil => exact ⟨[], hfront'.symm⟩
        | cons d front' =>
            have hd := d.utf8Size_pos
            rw [byteLength_cons] at hboth
            omega
    obtain rfl := (List.cons.inj hz).1
    refine (List.prefix_cons_inj z).mpr (List.reverse_suffix.mp ?_)
    exact hends
  · rintro ⟨more, hmore⟩
    obtain ⟨rfl, rfl⟩ := List.cons.inj hmore
    refine ⟨⟨front ++ '<' :: opener.reverse ++ more.reverse, by simp⟩, ?_⟩
    simp only [List.append_eq, List.cons_append, List.nil_append, byteLength_cons,
      byteLength_nil] at htwo ⊢
    omega

private theorem charAt?_before_iff {seen : List Char} {start : Nat}
    (hseen : SeenSince read start seen)
    {a : Char} (ha : a.toNat < 0x80) (hopen : a ≠ '<') :
    0 < byteLength read ∧ charAt? (utf8 (read ++ rest)) (byteLength read - 1) = some a ↔
      seen.head? = some a := by
  rw [charAt?_pred_eq_iff ha]
  obtain ⟨front, rfl, -⟩ := hseen
  cases seen with
  | nil => simp [hopen.symm]
  | cons d seen =>
      rw [List.reverse_cons, ← List.cons_append, ← List.append_assoc, List.getLast?_concat,
        List.head?_cons]

private theorem charAt?_behind_iff {seen : List Char} (hseen : SeenSince read s.tagOpen seen)
    {a : Char} (ha : a.toNat < 0x80) (hc : c ≠ a) :
    charAt? (utf8 (read ++ c :: rest)) (s.tagOpen + 1) = some a ↔ seen.getLast? = some a := by
  obtain ⟨front, rfl, hfront⟩ := hseen
  have hplace : s.tagOpen + 1 = byteLength (front ++ ['<']) := by
    rw [byteLength_append, hfront]
    rfl
  rw [hplace]
  rcases List.eq_nil_or_concat seen with rfl | ⟨init, d, rfl⟩
  · have htext : front ++ '<' :: [].reverse ++ c :: rest = (front ++ ['<']) ++ c :: rest := by simp
    rw [htext, charAt?_lead, Option.some.injEq, leadChar_eq_iff ha]
    simp [hc]
  · have htext : front ++ '<' :: (init.concat d).reverse ++ c :: rest =
        (front ++ ['<']) ++ d :: (init.reverse ++ c :: rest) := by simp
    rw [htext, charAt?_lead, Option.some.injEq, leadChar_eq_iff ha]
    simp

end Bytes

/-! ### Scans that follow a reading -/

/-- The scan holds the offsets of the construct that a reading keeps. -/
def HoldsTag (s : Scan) : Option Tag → Prop
  | none => s.nameStart = none ∧ s.closing = false
  | some tag =>
      s.tagOpen = tag.start ∧ s.nameStart = some tag.nameStart ∧ s.nameStop = tag.nameStop ∧
        s.closing = tag.closing

/-- The scan holds the bounds of the name of an attribute. -/
def HoldsName (s : Scan) (name : Bounds) : Prop :=
  s.attributeStart = some name.start ∧ s.attributeStop = some name.stop

/-- The scan holds what a reading knows at a place of a tag. -/
def HoldsSpot (s : Scan) : Spot → Prop
  | .name | .gap => s.attributeStart = none
  | .attributeName start stop => s.attributeStart = some start ∧ s.attributeStop = stop
  | .beforeValue name => s.HoldsName name
  | .value name quote start => s.HoldsName name ∧ s.quote = quote ∧ s.valueStart = some start
  | .afterValue name value =>
      s.HoldsName name ∧ s.valueStart = some value.start ∧ s.valueStop = some value.stop

/-- Inside a comment or character data, the opener is what stands before the body. -/
def KnowsOpener : Phase → Prop
  | .comment tag _ => tag.seen = Reading.commentOpener
  | .cdata tag _ => tag.seen = Reading.cdataOpener
  | _ => True

/-- The scan tells what the reading tells, apart from the number of bytes. -/
structure Follows (s : Scan) (r : Reading) : Prop where
  region : s.region = r.phase.region
  openTags : s.openTags = r.openTags
  tag : s.HoldsTag r.phase.tag?
  spot : ∀ tag spot, r.phase = .inTag tag spot → s.HoldsSpot spot
  opener : KnowsOpener r.phase

section Follows

variable {r : Reading} {tag : Tag} {spot : Spot}

private theorem Follows.ite {p q : Prop} [Decidable p] [Decidable q] {s t : Scan} {r u : Reading}
    (hpq : p ↔ q) (htrue : q → s.Follows r) (hfalse : ¬ q → t.Follows u) :
    (if p then s else t).Follows (if q then r else u) := by
  by_cases hq : q
  · rw [if_pos (hpq.mpr hq), if_pos hq]
    exact htrue hq
  · rw [if_neg fun hp => hq (hpq.mp hp), if_neg hq]
    exact hfalse hq

private theorem follows_moveTo (hregion : s.region = spot.region) (hopen : s.openTags = r.openTags)
    (htag : s.HoldsTag (some tag)) (hspot : s.HoldsSpot spot) : s.Follows (r.moveTo tag spot) where
  region := hregion
  openTags := hopen
  tag := htag
  spot _ _ h := by
    obtain ⟨rfl, rfl⟩ := Phase.inTag.inj h
    exact hspot
  opener := trivial

private theorem follows_openTag (hopen : s.openTags = r.openTags) :
    (s.openTag r.pos).Follows r.openTag where
  region := rfl
  openTags := congrArg (r.pos :: ·) hopen
  tag := ⟨rfl, rfl, rfl, rfl⟩
  spot _ _ h := by
    obtain ⟨rfl, rfl⟩ := Phase.inTag.inj h
    rfl
  opener := trivial

private theorem follows_abandonTag (hopen : s.openTags = r.openTags) :
    (s.abandonTag r.pos).Follows r.abandonTag :=
  follows_openTag (s := { s with openTags := s.openTags.drop 1 })
    (r := { r with openTags := r.openTags.drop 1 }) (congrArg (List.drop 1) hopen)

variable {read rest : List Char}

private theorem follows_closeTag (hopen : s.openTags = r.openTags) (htag : s.HoldsTag (some tag))
    (hpos : r.pos = byteLength read) (hseen : SeenSince read s.tagOpen tag.seen) :
    (s.closeTag (utf8 (read ++ '>' :: rest)) r.pos).Follows (r.closeTag tag) := by
  have hself : (0 < r.pos && charAt? (utf8 (read ++ '>' :: rest)) (r.pos - 1) == some '/') =
      (tag.seen.head? == some '/') := by
    rw [hpos, Bool.eq_iff_iff, Bool.and_eq_true, decide_eq_true_eq, beq_iff_eq, beq_iff_eq,
      charAt?_before_iff hseen (by decide) (by decide)]
  have hbehind {a : Char} (ha : a.toNat < 0x80) (hgt : '>' ≠ a) :
      (charAt? (utf8 (read ++ '>' :: rest)) (s.tagOpen + 1) == some a) =
        (tag.seen.getLast? == some a) := by
    rw [Bool.eq_iff_iff, beq_iff_eq, beq_iff_eq, charAt?_behind_iff hseen ha hgt]
  constructor
  · rfl
  · simp only [closeTag, Reading.closeTag, hself, hbehind (a := '?') (by decide) (by decide),
      hbehind (a := '!') (by decide) (by decide), hopen, htag.2.2.2]
  · exact htag
  · exact fun _ _ h => absurd h (by simp [Reading.closeTag])
  · trivial

private theorem Follows.tag_inTag (h : s.Follows r) (hphase : r.phase = .inTag tag spot) :
    s.HoldsTag (some tag) := by
  have htag := h.tag
  rwa [hphase] at htag

private theorem Follows.region_inTag (h : s.Follows r) (hphase : r.phase = .inTag tag spot) :
    s.region = spot.region := by
  rw [h.region, hphase]
  rfl

private theorem Follows.seenSince (h : s.Follows r) (hread : r.HasRead read)
    (hphase : r.phase = .inTag tag spot) : SeenSince read s.tagOpen tag.seen := by
  rw [(h.tag_inTag hphase).1]
  exact hread.since _ _ (by rw [hphase]; rfl)

private theorem Follows.passName (h : s.Follows r) (hread : r.HasRead read)
    (hphase : r.phase = .inTag tag .name) :
    (s.passName (utf8 (read ++ c :: rest)) r.pos (leadChar c)).Follows (r.readName tag c) := by
  obtain ⟨hstart, hname, hstop, hclosing⟩ := h.tag_inTag hphase
  have hregion := h.region_inTag hphase
  have hspot := h.spot _ _ hphase
  have hseen := h.seenSince hread hphase
  have hopened (opener : List Char) (hopener : opener.all (·.toNat < 0x80) = true) :
      s.isOpenedBy (utf8 (read ++ c :: rest)) r.pos ('<' :: opener.reverse) = true ↔
        c :: tag.seen = opener := by
    rw [hread.pos_eq]
    exact isOpenedBy_iff hseen hopener
  refine .ite (hopened Reading.commentOpener (by decide)) (fun hopen => ?_) fun _ => ?_
  · exact ⟨rfl, congrArg (List.drop 1) h.openTags, ⟨hstart, hname, hstop, hclosing⟩,
      fun _ _ h => absurd h (by simp), hopen⟩
  refine .ite (hopened Reading.cdataOpener (by decide)) (fun hopen => ?_) fun _ => ?_
  · exact ⟨rfl, congrArg (List.drop 1) h.openTags, ⟨hstart, hname, hstop, hclosing⟩,
      fun _ _ h => absurd h (by simp), hopen⟩
  refine .ite (leadChar_eq_iff (by decide)) (fun _ => .ite ?_ (fun _ => ?_) fun _ => ?_) fun _ => ?_
  · rw [hname, hclosing, Option.some.injEq, eq_comm]
  · exact follows_moveTo hregion h.openTags ⟨hstart, rfl, hstop, rfl⟩ hspot
  · exact follows_moveTo rfl h.openTags ⟨hstart, hname, rfl, hclosing⟩ hspot
  refine .ite (leadChar_eq_iff (by decide)) (fun hgt => ?_) fun _ => ?_
  · subst hgt
    exact follows_closeTag (s := { s with nameStop := some r.pos }) h.openTags
      ⟨hstart, hname, rfl, hclosing⟩ hread.pos_eq hseen
  refine .ite (leadChar_eq_iff (by decide)) (fun _ => follows_abandonTag h.openTags) fun _ => ?_
  refine .ite (by rw [isMarkupBlank_leadChar]) (fun _ => ?_) fun _ => ?_
  · exact follows_moveTo rfl h.openTags ⟨hstart, hname, rfl, hclosing⟩ hspot
  · exact follows_moveTo hregion h.openTags ⟨hstart, hname, hstop, hclosing⟩ hspot

private theorem quote_lt_of_hasRead (hread : r.HasRead read) {name : Bounds} {quote : Char}
    {start : Nat} (hphase : r.phase = .inTag tag (.value name (some quote) start)) :
    quote.toNat < 0x80 := by
  obtain ⟨-, before, piece, after, -, -, -, hquote⟩ := (hread.innermost _ _ hphase).2
  rcases (hquote quote rfl).1 with rfl | rfl <;> decide

private theorem Follows.passInTag (h : s.Follows r) (hread : r.HasRead read)
    (hphase : r.phase = .inTag tag spot) :
    (s.pass (utf8 (read ++ c :: rest)) r.pos (leadChar c)).Follows (r.readSpot tag spot c) := by
  have htag := h.tag_inTag hphase
  have hregion := h.region_inTag hphase
  have hspot := h.spot _ _ hphase
  have hseen := h.seenSince hread hphase
  have hstart {next : Tag} (hnext : s.HoldsTag (some next)) :
      (s.startAttribute r.pos).Follows (r.moveTo next (.attributeName r.pos none)) :=
    follows_moveTo rfl h.openTags hnext ⟨rfl, rfl⟩
  have hleave {next : Tag} (hnext : s.HoldsTag (some next)) :
      s.leaveAttribute.Follows (r.moveTo next .gap) :=
    follows_moveTo rfl h.openTags hnext rfl
  have hstay {next : Tag} (hnext : s.HoldsTag (some next)) : s.Follows (r.moveTo next spot) :=
    follows_moveTo hregion h.openTags hnext hspot
  have hclose : c = '>' →
      (s.closeTag (utf8 (read ++ c :: rest)) r.pos).Follows (r.closeTag tag) := by
    rintro rfl
    exact follows_closeTag h.openTags htag hread.pos_eq hseen
  have hmark (a : Char) (ha : a.toNat < 0x80) : leadChar c = a ↔ c = a := leadChar_eq_iff ha
  have hslash : (leadChar c = '/' || isMarkupBlank (leadChar c)) = true ↔
      (c = '/' || isMarkupBlank c) = true := by
    rw [isMarkupBlank_leadChar, Bool.or_eq_true, Bool.or_eq_true, decide_eq_true_eq,
      decide_eq_true_eq, hmark '/' (by decide)]
  cases spot with
  | name =>
      simp only [pass, hregion, Spot.region]
      exact h.passName hread hphase
  | gap =>
      simp only [pass, hregion, Spot.region]
      refine .ite (hmark '>' (by decide)) hclose fun _ => ?_
      refine .ite (hmark '<' (by decide)) (fun _ => follows_abandonTag h.openTags) fun _ => ?_
      exact .ite hslash (fun _ => hstay htag) fun _ => hstart htag
  | attributeName start stop =>
      obtain ⟨hname, rfl⟩ := hspot
      simp only [pass, hregion, Spot.region]
      refine .ite (hmark '=' (by decide)) (fun _ => ?_) fun _ => ?_
      · exact follows_moveTo rfl h.openTags htag ⟨hname, rfl⟩
      refine .ite (hmark '>' (by decide)) (fun hgt => ?_) fun _ => ?_
      · subst hgt
        exact follows_closeTag (s := s.endAttribute r.pos) h.openTags htag hread.pos_eq hseen
      refine .ite (hmark '<' (by decide)) (fun _ => follows_abandonTag h.openTags) fun _ => ?_
      refine .ite (hmark '/' (by decide)) (fun _ => hleave htag) fun _ => ?_
      refine .ite (by rw [isMarkupBlank_leadChar]) (fun _ => ?_) fun _ => ?_
      · exact follows_moveTo (s := s.endAttribute r.pos) hregion h.openTags htag ⟨hname, rfl⟩
      exact .ite Iff.rfl (fun _ => hstart htag) fun _ => hstay htag
  | beforeValue name =>
      have hquote : (leadChar c = '"' || leadChar c = '\x27') = true ↔
          (c = '"' || c = '\x27') = true := by
        simp only [Bool.or_eq_true, decide_eq_true_eq, hmark '"' (by decide),
          hmark '\x27' (by decide)]
      simp only [pass, hregion, Spot.region]
      refine .ite hquote (fun hc => ?_) fun _ => ?_
      · have hlead : leadChar c = c := by
          rcases (by simpa using hc : c = '"' ∨ c = '\x27') with rfl | rfl <;> rfl
        exact follows_moveTo rfl h.openTags htag ⟨hspot, congrArg some hlead, rfl⟩
      refine .ite (hmark '>' (by decide)) hclose fun _ => ?_
      refine .ite (hmark '<' (by decide)) (fun _ => follows_abandonTag h.openTags) fun _ => ?_
      refine .ite (by rw [isMarkupBlank_leadChar]) (fun _ => hstay htag) fun _ => ?_
      exact follows_moveTo rfl h.openTags htag ⟨hspot, rfl, rfl⟩
  | value name quote start =>
      simp only [pass, hregion, Spot.region, passValue, hspot.2.1]
      cases quote with
      | some quote =>
          refine .ite (hmark quote (quote_lt_of_hasRead hread hphase)) (fun _ => ?_)
            fun _ => hstay htag
          exact follows_moveTo rfl h.openTags htag ⟨hspot.1, hspot.2.2, rfl⟩
      | none =>
          refine .ite (by rw [isMarkupBlank_leadChar]) (fun _ => hleave htag) fun _ => ?_
          refine .ite (hmark '>' (by decide)) (fun hgt => ?_) fun _ => hstay htag
          subst hgt
          refine follows_closeTag ?_ ?_ hread.pos_eq ?_
          · exact h.openTags
          · exact htag
          · exact hseen
  | afterValue name value =>
      simp only [pass, hregion, Spot.region]
      refine .ite (hmark '>' (by decide)) hclose fun _ => ?_
      refine .ite hslash (fun _ => hleave htag) fun _ => ?_
      refine .ite (hmark '<' (by decide)) (fun _ => follows_abandonTag h.openTags) fun _ => ?_
      exact hstart htag

private theorem Follows.ended (h : s.Follows r) (htag : r.phase.tag? = some tag) :
    { s with region := .content }.Follows { r with phase := .content (some tag) } where
  region := rfl
  openTags := h.openTags
  tag := htag ▸ h.tag
  spot _ _ hphase := absurd hphase (by simp)
  opener := trivial

private theorem Follows.goOn (h : s.Follows r) {phase : Phase}
    (hregion : phase.region = r.phase.region) (htag : phase.tag? = r.phase.tag?)
    (hinside : phase.isInsideTag = false) (hopener : KnowsOpener phase) :
    s.Follows { r with phase } where
  region := h.region.trans hregion.symm
  openTags := h.openTags
  tag := htag ▸ h.tag
  spot _ _ hphase := by
    obtain rfl : phase = _ := hphase
    exact absurd hinside (by simp [Phase.isInsideTag])
  opener := hopener

/-- The first byte of a character does what the character does. -/
private theorem Follows.pass (h : s.Follows r) (hread : r.HasRead read) (c : Char)
    (rest : List Char) :
    (s.pass (utf8 (read ++ c :: rest)) r.pos (leadChar c)).Follows (r.react c) := by
  have htag := h.tag
  have hregion := h.region
  have hopener := h.opener
  cases hphase : r.phase with
  | content last =>
      rw [hphase] at hregion
      simp only [Scan.pass, hregion, Phase.region, Reading.react, hphase]
      exact .ite (leadChar_eq_iff (by decide)) (fun _ => follows_openTag h.openTags) fun _ => h
  | comment tag body =>
      have hseen : SeenSince read tag.start (body ++ tag.seen) :=
        hread.since _ _ (by rw [hphase]; rfl)
      rw [hphase] at hregion htag hopener
      rw [← htag.1, hopener] at hseen
      have hends : s.isEndedBy (utf8 (read ++ c :: rest)) r.pos commentStart commentEnd =
          Reading.endsComment (c :: body) := by
        rw [Bool.eq_iff_iff, Reading.endsComment_iff, hread.pos_eq]
        exact isEndedBy_iff hseen (by decide)
      simp only [Scan.pass, hregion, Phase.region, Reading.react, hphase, hends]
      cases Reading.endsComment (c :: body) with
      | true => exact h.ended (by rw [hphase]; rfl)
      | false => exact h.goOn (by rw [hphase]; rfl) (by rw [hphase]; rfl) rfl hopener
  | cdata tag body =>
      have hseen : SeenSince read tag.start (body ++ tag.seen) :=
        hread.since _ _ (by rw [hphase]; rfl)
      rw [hphase] at hregion htag hopener
      rw [← htag.1, hopener] at hseen
      have hends : s.isEndedBy (utf8 (read ++ c :: rest)) r.pos cdataStart cdataEnd =
          Reading.endsCdata (c :: body) := by
        rw [Bool.eq_iff_iff, Reading.endsCdata_iff, hread.pos_eq]
        exact isEndedBy_iff hseen (by decide)
      simp only [Scan.pass, hregion, Phase.region, Reading.react, hphase, hends]
      cases Reading.endsCdata (c :: body) with
      | true => exact h.ended (by rw [hphase]; rfl)
      | false => exact h.goOn (by rw [hphase]; rfl) (by rw [hphase]; rfl) rfl hopener
  | inTag tag spot =>
      rw [Reading.react, hphase]
      exact h.passInTag hread hphase

/-! ### The other bytes of a character -/

/-- A byte that is no ASCII character changes nothing here. -/
def IsSettled (s : Scan) : Prop :=
  match s.region with
  | .content | .comment | .cdata | .tagName => True
  | .attributeName => s.attributeStop = none
  | .value => ∀ quote, s.quote = some quote → quote.toNat < 0x80
  | .gap | .beforeValue | .afterValue => False

private theorem ne_of_high {d : Char} (hd : 0x80 ≤ d.toNat) :
    d ≠ '<' ∧ d ≠ '>' ∧ d ≠ '/' ∧ d ≠ '=' ∧ d ≠ '"' ∧ d ≠ '\x27' ∧ isMarkupBlank d = false := by
  have hne (a : Char) (ha : a.toNat < 0x80) : d ≠ a := by
    rintro rfl
    exact absurd ha (Nat.not_lt_of_le hd)
  refine ⟨hne _ (by decide), hne _ (by decide), hne _ (by decide), hne _ (by decide),
    hne _ (by decide), hne _ (by decide), ?_⟩
  simp only [isMarkupBlank, Bool.or_eq_false_iff, beq_eq_false_iff_ne]
  exact ⟨⟨⟨hne _ (by decide), hne _ (by decide)⟩, hne _ (by decide)⟩, hne _ (by decide)⟩

section High

variable {d : Char} (hbyte : charAt? bytes i = some d) (hd : 0x80 ≤ d.toNat)
include hbyte hd

private theorem passName_of_high : s.passName bytes i d = s := by
  obtain ⟨hlt, hgt, hslash, -, -, -, hblank⟩ := ne_of_high hd
  have hcomment := endsWithAt_of_high hbyte hd commentStart (by decide) (by decide)
  have hcdata := endsWithAt_of_high hbyte hd cdataStart (by decide) (by decide)
  simp [passName, isOpenedBy, hcomment, hcdata, hlt, hgt, hslash, hblank]

private theorem isEndedBy_of_high {start : List Char} (mark : List Char)
    (hmark : mark.all (·.toNat < 0x80) = true) (hne : mark ≠ []) :
    s.isEndedBy bytes i start mark = false := by
  rw [isEndedBy, endsWithAt_of_high hbyte hd mark hmark hne, Bool.false_and]

private theorem IsSettled.pass (h : s.IsSettled) : s.pass bytes i d = s := by
  obtain ⟨hlt, hgt, hslash, hequals, hdouble, hsingle, hblank⟩ := ne_of_high hd
  cases hregion : s.region with
  | content => simp [Scan.pass, hregion, hlt]
  | comment | cdata =>
      simp [Scan.pass, hregion,
        isEndedBy_of_high hbyte hd commentEnd (by decide) (by decide),
        isEndedBy_of_high hbyte hd cdataEnd (by decide) (by decide)]
  | tagName => simp [Scan.pass, hregion, passName_of_high hbyte hd]
  | attributeName =>
      rw [IsSettled, hregion] at h
      simp [Scan.pass, hregion, hlt, hgt, hslash, hequals, hblank, h]
  | value =>
      rw [IsSettled, hregion] at h
      cases hquote : s.quote with
      | none => simp [Scan.pass, hregion, passValue, hquote, hgt, hblank]
      | some quote =>
          have hne : d ≠ quote := by
            rintro rfl
            exact absurd (h d hquote) (Nat.not_lt_of_le hd)
          simp [Scan.pass, hregion, passValue, hquote, hne]
  | gap | beforeValue | afterValue =>
      rw [IsSettled, hregion] at h
      exact h.elim

private theorem isSettled_pass
    (hquote : s.region = .value → ∀ quote, s.quote = some quote → quote.toNat < 0x80) :
    (s.pass bytes i d).IsSettled := by
  obtain ⟨hlt, hgt, hslash, hequals, hdouble, hsingle, hblank⟩ := ne_of_high hd
  by_cases hsettled : s.IsSettled
  · rwa [hsettled.pass hbyte hd]
  · cases hregion : s.region with
    | content | comment | cdata | tagName => simp [IsSettled, hregion] at hsettled
    | value =>
        rw [IsSettled, hregion] at hsettled
        exact absurd (hquote hregion) hsettled
    | gap | beforeValue | afterValue =>
        simp [Scan.pass, hregion, hlt, hgt, hslash, hdouble, hsingle, hblank, IsSettled,
          startAttribute, resetAttribute]
    | attributeName =>
        rw [IsSettled, hregion] at hsettled
        have hstop : s.attributeStop.isSome = true := Option.isSome_iff_ne_none.mpr hsettled
        simp [Scan.pass, hregion, hlt, hgt, hslash, hequals, hblank, hstop, IsSettled,
          startAttribute, resetAttribute]

end High

private theorem IsSettled.steps {count : Nat} (h : s.IsSettled)
    (hbytes : ∀ k < count, ∃ d, charAt? bytes (s.pos + k) = some d ∧ 0x80 ≤ d.toNat) :
    scanner.steps bytes count s = { s with pos := s.pos + count } := by
  induction count generalizing s with
  | zero => rfl
  | succ count ih =>
      obtain ⟨d, hbyte, hd⟩ := hbytes 0 (Nat.succ_pos count)
      have hstep : scanner.step bytes s = { s with pos := s.pos + 1 } := by
        show step bytes s = _
        rw [Nat.add_zero] at hbyte
        rw [step, hbyte]
        simp only [h.pass hbyte hd]
      rw [Scanner.steps_succ, hstep]
      refine (ih (s := { s with pos := s.pos + 1 }) h fun k hk => ?_).trans ?_
      · obtain ⟨e, hnext, he⟩ := hbytes (k + 1) (Nat.succ_lt_succ hk)
        refine ⟨e, ?_, he⟩
        rwa [Nat.add_right_comm, Nat.add_assoc]
      · simp only [Nat.add_assoc, Nat.add_comm 1 count]

/-! ### Runs -/

private theorem Follows.quote_lt (h : s.Follows r) (hread : r.HasRead read)
    (hregion : s.region = .value) : ∀ quote, s.quote = some quote → quote.toNat < 0x80 := by
  intro quote hquote
  rw [h.region] at hregion
  cases hphase : r.phase with
  | content | comment | cdata => simp [hphase, Phase.region] at hregion
  | inTag tag spot =>
      cases spot with
      | name | gap | attributeName | beforeValue | afterValue =>
          simp [hphase, Phase.region, Spot.region] at hregion
      | value name q start =>
          have hspot := h.spot _ _ hphase
          obtain rfl : some quote = q := hquote.symm.trans hspot.2.1
          exact quote_lt_of_hasRead hread hphase

private theorem Follows.withPos (h : s.Follows r) (m n : Nat) :
    { s with pos := m }.Follows { r with pos := n } :=
  ⟨h.region, h.openTags, h.tag, h.spot, h.opener⟩

/-- The bytes of a character do what the character does. -/
private theorem Follows.steps_char (h : s.Follows r) (hpos : s.pos = r.pos)
    (hread : r.HasRead read) (c : Char) (rest : List Char) :
    (scanner.steps (utf8 (read ++ c :: rest)) c.utf8Size s).pos = (r.step c).pos ∧
      (scanner.steps (utf8 (read ++ c :: rest)) c.utf8Size s).Follows (r.step c) := by
  have hlead := charAt?_lead read rest c
  rw [← hread.pos_eq] at hlead
  have hfirst : scanner.step (utf8 (read ++ c :: rest)) s =
      { s.pass (utf8 (read ++ c :: rest)) r.pos (leadChar c) with pos := r.pos + 1 } := by
    show step _ s = _
    rw [step, hpos, hlead]
  have hpass := h.pass hread c rest
  obtain ⟨count, hcount⟩ := Nat.exists_eq_succ_of_ne_zero (Nat.ne_of_gt c.utf8Size_pos)
  have hsteps : scanner.steps (utf8 (read ++ c :: rest)) c.utf8Size s =
      { s.pass (utf8 (read ++ c :: rest)) r.pos (leadChar c) with pos := r.pos + c.utf8Size } := by
    rw [hcount, Scanner.steps_succ, hfirst]
    by_cases hc : c.toNat < 0x80
    · obtain rfl : count = 0 := by
        rw [utf8Size_of_lt hc] at hcount
        omega
      rfl
    · have hc := Nat.le_of_not_lt hc
      have hsettled := isSettled_pass hlead (le_leadChar hc) (h.quote_lt hread)
      refine (IsSettled.steps (s := { s.pass _ r.pos _ with pos := r.pos + 1 }) hsettled
        fun k hk => ?_).trans ?_
      · have hhigh := exists_charAt?_high read rest (k := k + 1) (by omega) hc
        rwa [← hread.pos_eq, Nat.add_comm k 1, ← Nat.add_assoc] at hhigh
      · simp only [Nat.add_assoc, Nat.add_comm 1 count]
  rw [hsteps]
  exact ⟨rfl, hpass.withPos _ _⟩

private theorem Follows.steps_text (h : s.Follows r) (hpos : s.pos = r.pos) (hread : r.HasRead read)
    (more rest : List Char) :
    (scanner.steps (utf8 (read ++ (more ++ rest))) (byteLength more) s).pos =
        (r.readAll more).pos ∧
      (scanner.steps (utf8 (read ++ (more ++ rest))) (byteLength more) s).Follows
        (r.readAll more) := by
  induction more generalizing s r read with
  | nil => exact ⟨hpos, h⟩
  | cons c more ih =>
      obtain ⟨hnext, hfollows⟩ := h.steps_char hpos hread c (more ++ rest)
      have hrest := ih hfollows hnext (hread.step c)
      rw [List.append_assoc, List.singleton_append] at hrest
      rw [byteLength_cons, Scanner.steps_add]
      exact hrest

private theorem follows_start : ({} : Scan).Follows {} where
  region := rfl
  openTags := rfl
  tag := ⟨rfl, rfl⟩
  spot _ _ h := absurd h (by simp)
  opener := trivial

private theorem Follows.closing_eq (h : s.Follows r) : s.closing = r.isClosingTag := by
  have htag := h.tag
  rw [Reading.isClosingTag]
  cases hlast : r.phase.tag? with
  | none =>
      rw [hlast] at htag
      exact htag.2
  | some tag =>
      rw [hlast] at htag
      exact htag.2.2.2

private theorem Follows.tagName_eq (h : s.Follows r) (hpos : s.pos = r.pos) :
    s.tagNameSpan = r.tagNameSpan := by
  obtain ⟨hregion, -, htag, -, -⟩ := h
  cases hphase : r.phase with
  | comment | cdata => simp [tagNameSpan, Reading.tagNameSpan, hregion, hphase, Phase.region]
  | content last =>
      rw [hphase] at htag
      cases last with
      | none =>
          simp [tagNameSpan, Reading.tagNameSpan, hregion, hphase, Phase.region, Phase.tag?, htag.1]
      | some tag =>
          simp [tagNameSpan, Reading.tagNameSpan, hregion, hphase, Phase.region, Phase.tag?,
            htag.2.1, htag.2.2.1, hpos]
  | inTag tag spot =>
      rw [hphase] at htag
      cases spot <;>
        simp [tagNameSpan, Reading.tagNameSpan, hregion, hphase, Phase.region, Spot.region,
          Phase.tag?, htag.2.1, htag.2.2.1, hpos]

private theorem Follows.attributeName_eq (h : s.Follows r) (hpos : s.pos = r.pos) :
    s.attributeNameSpan = r.attributeNameSpan := by
  obtain ⟨hregion, -, -, hspot, -⟩ := h
  cases hphase : r.phase with
  | content | comment | cdata =>
      simp [attributeNameSpan, Reading.attributeNameSpan, hregion, hphase, Phase.region,
        Region.isInsideTag]
  | inTag tag spot =>
      have hspot := hspot _ _ hphase
      cases spot with
      | name | gap =>
          have hstart : s.attributeStart = none := hspot
          simp [attributeNameSpan, Reading.attributeNameSpan, hregion, hphase, Phase.region,
            Spot.region, Region.isInsideTag, hstart]
      | attributeName start stop =>
          simp [attributeNameSpan, Reading.attributeNameSpan, hregion, hphase, Phase.region,
            Spot.region, Region.isInsideTag, hspot.1, hspot.2, hpos]
      | beforeValue name =>
          simp [attributeNameSpan, Reading.attributeNameSpan, hregion, hphase, Phase.region,
            Spot.region, Region.isInsideTag, hspot.1, hspot.2]
      | value | afterValue =>
          simp [attributeNameSpan, Reading.attributeNameSpan, hregion, hphase, Phase.region,
            Spot.region, Region.isInsideTag, hspot.1.1, hspot.1.2]

private theorem Follows.attributeValue_eq (h : s.Follows r) (hpos : s.pos = r.pos) :
    s.attributeValueSpan = r.attributeValueSpan := by
  obtain ⟨hregion, -, -, hspot, -⟩ := h
  cases hphase : r.phase with
  | content | comment | cdata =>
      simp [attributeValueSpan, Reading.attributeValueSpan, hregion, hphase, Phase.region]
  | inTag tag spot =>
      have hspot := hspot _ _ hphase
      cases spot with
      | name | gap | attributeName | beforeValue =>
          simp [attributeValueSpan, Reading.attributeValueSpan, hregion, hphase, Phase.region,
            Spot.region]
      | value =>
          simp [attributeValueSpan, Reading.attributeValueSpan, hregion, hphase, Phase.region,
            Spot.region, hspot.2.2, hpos]
      | afterValue =>
          simp [attributeValueSpan, Reading.attributeValueSpan, hregion, hphase, Phase.region,
            Spot.region, hspot.2.1, hspot.2.2]

private theorem Follows.snapshot_eq (h : s.Follows r) (hpos : s.pos = r.pos) :
    s.snapshot = r.snapshot := by
  rw [snapshot, Reading.snapshot, hpos, h.region, h.closing_eq, h.tagName_eq hpos,
    h.attributeName_eq hpos, h.attributeValue_eq hpos, h.openTags]

/-- At every offset a scan tells what a reading tells. -/
theorem snapshot_upTo (text : List Char) (offset : Nat) :
    (upTo text offset).snapshot = (Reading.upTo text offset).snapshot := by
  obtain ⟨rest, htext, -⟩ := exists_takeBytes_append text offset
  obtain ⟨hpos, hfollows⟩ := follows_start.steps_text rfl Reading.hasRead_start
    (takeBytes text offset) rest
  have hscan : upTo text offset =
      scanner.steps (utf8 ([] ++ (takeBytes text offset ++ rest)))
        (byteLength (takeBytes text offset)) {} := by
    rw [List.nil_append, ← htext, byteLength_takeBytes]
    rfl
  rw [hscan, Reading.upTo_eq_readAll]
  exact hfollows.snapshot_eq hpos

end Follows

end Scan

end XamlAssist.Document
