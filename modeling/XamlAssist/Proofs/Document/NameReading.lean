import XamlAssist.Proofs.Document.Verbatim

/-!
# Reading the name of a tag

A reading keeps two offsets for the name of the current tag, or of the last one: the first is set at
the `<`, the second by the character that ends the name. What has been read of a tag is therefore a
name and what stands behind it, and from the place in the tag it is known whether the name has ended
(`Tag.NamedAt`). A comment and character data begin like a tag, but no character ends a name there.

`NameEffect` says what a character does to the name of the tag that it is read in, and `TellsNames`
is what every reading of a text keeps.
-/

namespace XamlAssist.Document

open Text

theorem Verbatim.opener_plain (kind : Verbatim) {c : Char} (hc : c ∈ kind.opener.tail) :
    Reading.endsTagName c = false := by
  have hall : kind.opener.tail.all (fun c => !Reading.endsTagName c) = true := by
    cases kind <;> decide
  simpa using List.all_eq_true.mp hall c hc

/-! ### What has been read of a name -/

/-- What stands between the `<` of the tag and its name. -/
def Tag.lead (tag : Tag) : List Char := if tag.closing then ['/'] else []

/-- What has been read of the tag behind its `<` is its lead, `name`, and `after`, which begins with
a character that ends a name. -/
structure Tag.Reads (tag : Tag) (name after : List Char) : Prop where
  seen_eq : tag.seen.reverse = tag.lead ++ (name ++ after)
  plain : ∀ c ∈ name, Reading.endsTagName c = false
  ends : ∀ c, after.head? = some c → Reading.endsTagName c = true

/-- The name has ended, and its end is known. -/
def Tag.HasName (tag : Tag) (name : List Char) : Prop :=
  tag.nameStop = some (tag.nameStart + byteLength name)

/-- At a place of the tag it is known how much of the name has been read. -/
def Tag.NamedAt (tag : Tag) (spot : Spot) : Prop :=
  ∃ name after, tag.Reads name after ∧
    (spot = .name → after = []) ∧ (spot ≠ .name → after ≠ [] ∧ tag.HasName name)

/-- No comment and no character data begin with the tag. -/
def Tag.IsPlain (tag : Tag) : Prop :=
  ∀ kind : Verbatim, ¬ kind.opener.tail <+: tag.seen.reverse

/-- The construct that ended last: a tag with its name, or a comment or character data. -/
inductive Tag.EndedIn (tag : Tag) (text : List Char) : Prop
  | named (name after : List Char) : tag.Reads name after → tag.HasName name → tag.IsPlain →
      (∃ front rest, text = front ++ '<' :: (tag.seen.reverse ++ '>' :: rest) ∧
        byteLength front = tag.start) → EndedIn tag text
  | verbatim (kind : Verbatim) : tag.nameStop = none → tag.nameStart = tag.start + 1 →
      (∃ front rest, text = front ++ (kind.opener ++ rest) ∧ byteLength front = tag.start ∧
        '>' ∈ rest) → EndedIn tag text

theorem Tag.EndedIn.concat {tag : Tag} {text : List Char} (h : tag.EndedIn text) (c : Char) :
    tag.EndedIn (text ++ [c]) := by
  cases h with
  | named name after hreads hname hplain hstands =>
      obtain ⟨front, rest, rfl, hfront⟩ := hstands
      exact .named name after hreads hname hplain ⟨front, rest ++ [c], by simp, hfront⟩
  | verbatim kind hstop hstart hstands =>
      obtain ⟨front, rest, rfl, hfront, hends⟩ := hstands
      exact .verbatim kind hstop hstart
        ⟨front, rest ++ [c], by simp, hfront, List.mem_append_left [c] hends⟩

/-- The tag of a comment or of character data has an opener in the place of a name. -/
structure Tag.IsVerbatim (tag : Tag) (kind : Verbatim) : Prop where
  seen_eq : tag.seen.reverse = kind.opener.tail
  nameStop : tag.nameStop = none
  nameStart : tag.nameStart = tag.start + 1

/-! ### One character inside a tag -/

namespace Reading

variable {r : Reading} {tag : Tag} {spot : Spot} {c : Char}

/-- What a character inside a tag does to the name of the tag. -/
inductive NameEffect (r : Reading) (tag : Tag) (spot : Spot) (c : Char) : Reading → Prop
  | turns (kind : Verbatim) : spot = .name → tag.seen.reverse ++ [c] = kind.opener.tail →
      NameEffect r tag spot c
        { r with
          phase := kind.inside { tag with seen := c :: tag.seen } []
          openTags := r.openTags.drop 1 }
  /-- The slash of a closing tag. -/
  | slash : spot = .name → c = '/' → r.pos = tag.nameStart → tag.closing = false →
      NameEffect r tag spot c
        (r.moveTo { tag with seen := c :: tag.seen, closing := true, nameStart := r.pos + 1 } .name)
  | letter : spot = .name → endsTagName c = false →
      (∀ kind : Verbatim, tag.seen.reverse ++ [c] ≠ kind.opener.tail) →
      NameEffect r tag spot c (r.moveTo { tag with seen := c :: tag.seen } .name)
  | endsName : spot = .name → endsTagName c = true →
      NameEffect r tag spot c
        (r.moveTo { tag with seen := c :: tag.seen, nameStop := some r.pos } .gap)
  | behindName (next : Spot) : spot ≠ .name → next ≠ .name →
      NameEffect r tag spot c (r.moveTo { tag with seen := c :: tag.seen } next)
  /-- The name ends with the tag, or it has ended before. -/
  | endsTag (stop : Option Nat) : c = '>' → (spot = .name → stop = some r.pos) →
      (spot ≠ .name → stop = tag.nameStop) →
      NameEffect r tag spot c (r.closeTag { tag with nameStop := stop })
  | abandons : c = '<' → NameEffect r tag spot c r.abandonTag

private theorem nameEffect_readName (r : Reading) (tag : Tag) (c : Char) :
    r.NameEffect tag .name c (r.readName tag c) := by
  unfold readName
  dsimp only
  split
  · next hseen => exact .turns .comment rfl (by rw [← List.reverse_cons, hseen]; rfl)
  next hcomment =>
    split
    · next hseen => exact .turns .cdata rfl (by rw [← List.reverse_cons, hseen]; rfl)
    next hcdata =>
      split
      · next hslash =>
          split
          · next hfirst =>
              simp only [Bool.not_eq_true'] at hfirst
              exact .slash rfl hslash hfirst.1 hfirst.2
          · exact .endsName rfl (by rw [hslash]; rfl)
      split
      · next hgt => exact .endsTag (some r.pos) hgt (fun _ => rfl) fun h => absurd rfl h
      split
      · next hlt => exact .abandons hlt
      split
      · next hblank => exact .endsName rfl (by simp [endsTagName, hblank])
      · next hslash hgt hlt hblank =>
          refine .letter rfl
            (endsTagName_eq_false (Bool.eq_false_iff.mpr hblank) hgt hslash hlt) fun kind heq => ?_
          have hseen := congrArg List.reverse heq
          rw [List.reverse_append, List.reverse_reverse] at hseen
          cases kind with
          | comment => exact hcomment hseen
          | cdata => exact hcdata hseen

private theorem nameEffect_goesOn (hspot : spot ≠ .name) {next : Spot} (hnext : next ≠ .name) :
    r.NameEffect tag spot c (r.moveTo { tag with seen := c :: tag.seen } next) :=
  .behindName next hspot hnext

private theorem nameEffect_closeTag (hspot : spot ≠ .name) (hc : c = '>') :
    r.NameEffect tag spot c (r.closeTag tag) :=
  .endsTag tag.nameStop hc (fun h => absurd h hspot) fun _ => rfl

private theorem nameEffect_readSpot (r : Reading) (tag : Tag) (spot : Spot) (c : Char) :
    r.NameEffect tag spot c (r.readSpot tag spot c) := by
  cases spot with
  | name => exact nameEffect_readName r tag c
  | gap =>
      have hspot : Spot.gap ≠ .name := by simp
      unfold readSpot
      dsimp only
      split
      · next hgt => exact nameEffect_closeTag hspot hgt
      split
      · next hlt => exact .abandons hlt
      split <;> exact nameEffect_goesOn hspot (by simp)
  | attributeName start stop =>
      have hspot : Spot.attributeName start stop ≠ .name := by simp
      unfold readSpot
      dsimp only
      split
      · exact nameEffect_goesOn hspot (by simp)
      split
      · next hgt => exact nameEffect_closeTag hspot hgt
      split
      · next hlt => exact .abandons hlt
      repeat' split
      all_goals exact nameEffect_goesOn hspot (by simp)
  | beforeValue name =>
      have hspot : Spot.beforeValue name ≠ .name := by simp
      unfold readSpot
      dsimp only
      split
      · exact nameEffect_goesOn hspot (by simp)
      split
      · next hgt => exact nameEffect_closeTag hspot hgt
      split
      · next hlt => exact .abandons hlt
      split <;> exact nameEffect_goesOn hspot (by simp)
  | value name quote start =>
      have hspot : Spot.value name quote start ≠ .name := by simp
      cases quote with
      | some quote =>
          unfold readSpot
          dsimp only
          split <;> exact nameEffect_goesOn hspot (by simp)
      | none =>
          unfold readSpot
          dsimp only
          split
          · exact nameEffect_goesOn hspot (by simp)
          split
          · next hgt => exact nameEffect_closeTag hspot hgt
          · exact nameEffect_goesOn hspot (by simp)
  | afterValue name value =>
      have hspot : Spot.afterValue name value ≠ .name := by simp
      unfold readSpot
      dsimp only
      split
      · next hgt => exact nameEffect_closeTag hspot hgt
      split
      · exact nameEffect_goesOn hspot (by simp)
      split
      · next hlt => exact .abandons hlt
      · exact nameEffect_goesOn hspot (by simp)

/-! ### Readings that tell names -/

/-- The reading has read `text`, and what it tells about names is right. -/
structure TellsNames (r : Reading) (text : List Char) : Prop extends r.HasRead text where
  inTag : ∀ tag spot, r.phase = .inTag tag spot → tag.NamedAt spot ∧ tag.IsPlain
  inVerbatim : ∀ (kind : Verbatim) tag body, r.phase = kind.inside tag body → tag.IsVerbatim kind
  ended : ∀ tag, r.phase = .content (some tag) → tag.EndedIn text

section Establish

variable {text : List Char}

private theorem HasRead.tellsNames_inTag (h : r.HasRead text) (hphase : r.phase = .inTag tag spot)
    (hnamed : tag.NamedAt spot) (hplain : tag.IsPlain) : r.TellsNames text where
  toHasRead := h
  inTag other place hother := by
    obtain ⟨rfl, rfl⟩ := Phase.inTag.inj (hphase.symm.trans hother)
    exact ⟨hnamed, hplain⟩
  inVerbatim kind other body hother := by
    rw [hphase] at hother
    cases kind <;> exact Phase.noConfusion hother
  ended other hother := Phase.noConfusion (hphase.symm.trans hother)

private theorem HasRead.tellsNames_inVerbatim (h : r.HasRead text) {kind : Verbatim}
    {body : List Char} (hphase : r.phase = kind.inside tag body) (htag : tag.IsVerbatim kind) :
    r.TellsNames text where
  toHasRead := h
  inTag other place hother := by
    rw [hphase] at hother
    cases kind <;> exact Phase.noConfusion hother
  inVerbatim kind' other body' hother := by
    obtain ⟨rfl, rfl⟩ := Verbatim.inside_inj (hphase.symm.trans hother)
    exact htag
  ended other hother := by
    rw [hphase] at hother
    cases kind <;> exact Phase.noConfusion hother

private theorem HasRead.tellsNames_content (h : r.HasRead text) {last : Option Tag}
    (hphase : r.phase = .content last) (hlast : ∀ tag, last = some tag → tag.EndedIn text) :
    r.TellsNames text where
  toHasRead := h
  inTag other place hother := Phase.noConfusion (hphase.symm.trans hother)
  inVerbatim kind other body hother := by
    rw [hphase] at hother
    cases kind <;> exact Phase.noConfusion hother
  ended other hother := hlast other (Phase.content.inj (hphase.symm.trans hother))

private theorem HasRead.tellsNames_opened (h : r.HasRead text) {start : Nat}
    (hphase : r.phase = .inTag { start, nameStart := start + 1 } .name) : r.TellsNames text := by
  refine h.tellsNames_inTag hphase ⟨[], [], ⟨rfl, by simp, by simp⟩, fun _ => rfl, by simp⟩ ?_
  intro kind hopener
  cases kind <;> simp [Verbatim.opener] at hopener

end Establish

section Step

variable {text name after : List Char}

theorem HasRead.nameStart_eq (h : r.HasRead text) (htag : r.phase.tag? = some tag) :
    tag.nameStart = tag.start + 1 + byteLength tag.lead := by
  have hbehind := (h.named tag htag).behind
  have hslash : byteLength ['/'] = 1 := rfl
  unfold Tag.lead
  cases hclosing : tag.closing with
  | false => simpa [hclosing] using hbehind
  | true => simpa [hclosing, hslash] using hbehind

theorem HasRead.pos_eq_inName (h : r.HasRead text) (hphase : r.phase = .inTag tag spot)
    (hreads : tag.Reads name []) : r.pos = tag.nameStart + byteLength name := by
  rw [h.pos_eq_inTag hphase, h.nameStart_eq (by rw [hphase]; rfl), hreads.seen_eq, List.append_nil,
    byteLength_append]
  omega

private theorem isPlain_concat (h : tag.IsPlain) {next : Tag} (hseen : next.seen = c :: tag.seen)
    (hne : ∀ kind : Verbatim, tag.seen.reverse ++ [c] ≠ kind.opener.tail) : next.IsPlain := by
  intro kind hopener
  rw [hseen, List.reverse_cons, List.prefix_concat_iff] at hopener
  rcases hopener with heq | hopener
  · exact hne kind heq.symm
  · exact h kind hopener

private theorem isPlain_of_ends (h : tag.IsPlain) {next : Tag} (hseen : next.seen = c :: tag.seen)
    {d : Char} (hd : d ∈ tag.seen.reverse ++ [c]) (hends : endsTagName d = true) :
    next.IsPlain := by
  refine isPlain_concat h hseen fun kind heq => ?_
  rw [kind.opener_plain (heq ▸ hd)] at hends
  exact Bool.noConfusion hends

private theorem HasRead.isVerbatim (h : r.HasRead text) (hphase : r.phase = .inTag tag .name)
    (hreads : tag.Reads name after) {kind : Verbatim}
    (hopener : tag.seen.reverse ++ [c] = kind.opener.tail) :
    Tag.IsVerbatim { tag with seen := c :: tag.seen } kind := by
  have hlead : tag.lead = [] := by
    cases hclosing : tag.closing with
    | false => simp [Tag.lead, hclosing]
    | true =>
        have hslash : '/' ∈ tag.seen.reverse ++ [c] := by
          rw [hreads.seen_eq]
          simp [Tag.lead, hclosing]
        exact absurd (kind.opener_plain (hopener ▸ hslash)) (by decide)
  refine ⟨(List.reverse_cons ..).trans hopener, h.nameOpen tag hphase, ?_⟩
  have hstart := h.nameStart_eq (by rw [hphase]; rfl)
  rwa [hlead, byteLength_nil] at hstart

private theorem HasRead.seen_eq_nil (h : r.HasRead text) (hphase : r.phase = .inTag tag spot)
    (hpos : r.pos = tag.nameStart) (hclosing : tag.closing = false) : tag.seen.reverse = [] := by
  have hplace := h.pos_eq_inTag hphase
  have hstart := h.nameStart_eq (by rw [hphase]; rfl)
  have hlead : byteLength tag.lead = 0 := by simp [Tag.lead, hclosing]
  by_cases hseen : tag.seen.reverse = []
  · exact hseen
  · have hlength := byteLength_pos hseen
    omega

private theorem HasRead.endedIn (h : r.HasRead text) (hphase : r.phase = .inTag tag spot)
    (hreads : tag.Reads name after) (hplain : tag.IsPlain) {stop : Option Nat}
    (hname : stop = some (tag.nameStart + byteLength name)) :
    Tag.EndedIn { tag with nameStop := stop } (text ++ ['>']) := by
  obtain ⟨front, hfront, hstart⟩ := h.since tag.start tag.seen (by rw [hphase]; rfl)
  exact .named name after ⟨hreads.seen_eq, hreads.plain, hreads.ends⟩ hname hplain
    ⟨front, [], by simp [hfront], hstart⟩

private theorem TellsNames.step_inTag (h : r.TellsNames text) (hphase : r.phase = .inTag tag spot)
    (c : Char) : (r.step c).TellsNames (text ++ [c]) := by
  have hread := h.toHasRead.step c
  obtain ⟨⟨name, after, hreads, hin, hbehind⟩, hplain⟩ := h.inTag tag spot hphase
  have hnext : (r.step c).phase = (r.readSpot tag spot c).phase := by
    show (r.react c).phase = _
    rw [react, hphase]
  have heffect := nameEffect_readSpot r tag spot c
  generalize r.readSpot tag spot c = next at hnext heffect
  have hseen : (c :: tag.seen).reverse = tag.lead ++ (name ++ (after ++ [c])) := by
    rw [List.reverse_cons, hreads.seen_eq]
    simp
  cases heffect with
  | turns kind hspot hopener =>
      subst hspot
      exact hread.tellsNames_inVerbatim hnext (h.isVerbatim hphase hreads hopener)
  | slash hspot hc hpos hclosing =>
      subst hspot hc
      have hnil := h.seen_eq_nil hphase hpos hclosing
      refine hread.tellsNames_inTag hnext
        ⟨[], [], ⟨?_, by simp, by simp⟩, fun _ => rfl, fun hne => absurd rfl hne⟩
        (isPlain_of_ends hplain rfl (List.mem_append_right _ List.mem_cons_self) rfl)
      show ('/' :: tag.seen).reverse = ['/']
      rw [List.reverse_cons, hnil, List.nil_append]
  | letter hspot hc hne =>
      obtain rfl := hin hspot
      refine hread.tellsNames_inTag hnext
        ⟨name ++ [c], [], ⟨?_, ?_, by simp⟩, fun _ => rfl, fun hne => absurd rfl hne⟩
        (isPlain_concat hplain rfl hne)
      · show (c :: tag.seen).reverse = tag.lead ++ (name ++ [c] ++ [])
        rw [hseen, List.nil_append, List.append_nil]
      · intro d hd
        rcases List.mem_append.mp hd with hd | hd
        · exact hreads.plain d hd
        · rwa [List.mem_singleton.mp hd]
  | endsName hspot hends =>
      obtain rfl := hin hspot
      refine hread.tellsNames_inTag hnext
        ⟨name, [c], ⟨hseen, hreads.plain, ?_⟩, by simp, fun _ => ⟨by simp, ?_⟩⟩
        (isPlain_of_ends hplain rfl (List.mem_append_right _ List.mem_cons_self) hends)
      · simpa using hends
      · show some r.pos = some (tag.nameStart + byteLength name)
        rw [h.pos_eq_inName hphase hreads]
  | behindName place hspot hplace =>
      obtain ⟨hafter, hname⟩ := hbehind hspot
      obtain ⟨d, rest, rfl⟩ := List.exists_cons_of_ne_nil hafter
      have hd : endsTagName d = true := hreads.ends d rfl
      refine hread.tellsNames_inTag hnext
        ⟨name, d :: (rest ++ [c]), ⟨hseen, hreads.plain, ?_⟩, fun heq => absurd heq hplace,
          fun _ => ⟨by simp, hname⟩⟩
        (isPlain_of_ends hplain rfl (List.mem_append_left _ ?_) hd)
      · simpa using hd
      · rw [hreads.seen_eq]
        simp
  | endsTag stop hc hstop hkept =>
      subst hc
      refine hread.tellsNames_content hnext fun other hother => ?_
      obtain rfl := Option.some.inj hother
      refine h.endedIn hphase hreads hplain ?_
      by_cases hspot : spot = .name
      · obtain rfl := hin hspot
        rw [hstop hspot, h.pos_eq_inName hphase hreads]
      · rw [hkept hspot]
        exact (hbehind hspot).2
  | abandons hc => exact hread.tellsNames_opened hnext

private theorem mem_of_ends {kind : Verbatim} {body : List Char} (h : kind.ends body = true) :
    '>' ∈ body := by
  obtain ⟨rest, rfl⟩ := (kind.ends_iff body).mp h
  cases kind <;> simp [Verbatim.terminator]

private theorem TellsNames.step_inVerbatim (h : r.TellsNames text) (kind : Verbatim)
    {body : List Char} (hphase : r.phase = kind.inside tag body) (c : Char) :
    (r.step c).TellsNames (text ++ [c]) := by
  have hread := h.toHasRead.step c
  have htag := h.inVerbatim kind tag body hphase
  have hnext : (r.step c).phase =
      if kind.ends (c :: body) then .content (some tag) else kind.inside tag (c :: body) := by
    obtain ⟨pos, phase, opened⟩ := r
    obtain rfl : phase = kind.inside tag body := hphase
    rw [kind.step_inside]
  split at hnext
  · next hends =>
      refine hread.tellsNames_content hnext fun other hother => ?_
      obtain rfl := Option.some.inj hother
      have hsince : r.phase.sinceOpening? = some (tag.start, body ++ tag.seen) := by
        rw [hphase]
        cases kind <;> rfl
      obtain ⟨front, hfront, hstart⟩ := h.since tag.start _ hsince
      refine .verbatim kind htag.nameStop htag.nameStart
        ⟨front, (c :: body).reverse, ?_, hstart, List.mem_reverse.mpr (mem_of_ends hends)⟩
      have hopener : kind.opener = '<' :: tag.seen.reverse := by
        rw [htag.seen_eq]
        cases kind <;> rfl
      rw [hfront, hopener]
      simp
  · exact hread.tellsNames_inVerbatim hnext htag

theorem TellsNames.step (h : r.TellsNames text) (c : Char) :
    (r.step c).TellsNames (text ++ [c]) := by
  cases hphase : r.phase with
  | content last =>
      have hread := h.toHasRead.step c
      have hnext : (r.step c).phase = if c = '<' then r.openTag.phase else .content last := by
        show (r.react c).phase = _
        rw [react, hphase]
        dsimp only
        rw [apply_ite Reading.phase, hphase]
      split at hnext
      · exact hread.tellsNames_opened hnext
      · refine hread.tellsNames_content hnext fun tag hlast => ?_
        exact (h.ended tag (by rw [hphase, hlast])).concat c
  | comment tag body => exact h.step_inVerbatim .comment hphase c
  | cdata tag body => exact h.step_inVerbatim .cdata hphase c
  | inTag tag spot => exact h.step_inTag hphase c

theorem TellsNames.readAll (h : r.TellsNames text) (s : List Char) :
    (r.readAll s).TellsNames (text ++ s) := by
  induction s generalizing r text with
  | nil => simpa using h
  | cons c s ih => simpa using ih (h.step c)

private theorem tellsNames_start : ({} : Reading).TellsNames [] :=
  hasRead_start.tellsNames_content rfl (by simp)

theorem tellsNames_upTo (text : List Char) (offset : Nat) :
    (upTo text offset).TellsNames (takeBytes text offset) := by
  rw [upTo_eq_readAll]
  exact tellsNames_start.readAll _

end Step

end Reading

end XamlAssist.Document
