import XamlAssist.Proofs.Document.OpenElements
import XamlAssist.Proofs.Document.Placement

/-!
# Comments and character data

The opener of a comment or of character data is read as the beginning of a tag, and where it is
complete, the tag that was opened for it is taken away. From there on the text is passed over,
whatever it holds, up to the first terminator that stands wholly behind the opener; the open tags
stay those before the opener. Main statement: `verbatim_until_terminator`, for any text and any way
to come to the opener.
-/

namespace XamlAssist.Document

open Text

/-- The constructs whose text is passed over. -/
inductive Verbatim
  | comment
  | cdata
  deriving DecidableEq, Repr

namespace Verbatim

def opener : Verbatim → List Char
  | comment => ['<', '!', '-', '-']
  | cdata => ['<', '!', '[', 'C', 'D', 'A', 'T', 'A', '[']

def terminator : Verbatim → List Char
  | comment => ['-', '-', '>']
  | cdata => [']', ']', '>']

/-- The phase of a reading inside such a construct, given its body with the latest character
first. -/
def inside : Verbatim → Tag → List Char → Phase
  | comment => .comment
  | cdata => .cdata

/-- Whether a body, its latest character first, ends with the terminator. -/
def ends : Verbatim → List Char → Bool
  | comment => Reading.endsComment
  | cdata => Reading.endsCdata

theorem inside_inj {kind other : Verbatim} {tag tag' : Tag} {body body' : List Char}
    (h : kind.inside tag body = other.inside tag' body') : kind = other ∧ tag = tag' := by
  cases kind <;> cases other <;> simp_all [inside]

theorem ends_iff (kind : Verbatim) (s : List Char) :
    kind.ends s = true ↔ kind.terminator.reverse <+: s := by
  cases kind with
  | comment => exact Reading.endsComment_iff s
  | cdata => exact Reading.endsCdata_iff s

private theorem terminator_ne_nil (kind : Verbatim) : kind.terminator ≠ [] := by
  cases kind <;> exact List.cons_ne_nil _ _

private theorem byteLength_terminator (kind : Verbatim) : byteLength kind.terminator = 3 := by
  cases kind <;> rfl

theorem step_inside (kind : Verbatim) (tag : Tag) (opened : List Nat) (pos : Nat)
    (body : List Char) (c : Char) :
    Reading.step ⟨pos, kind.inside tag body, opened⟩ c =
      ⟨pos + c.utf8Size,
        if kind.ends (c :: body) then .content (some tag) else kind.inside tag (c :: body),
        opened⟩ := by
  cases kind <;> rfl

end Verbatim

/-- The construct that the text ends inside of, if the text of that is passed over. -/
def Phase.verbatim? : Phase → Option Verbatim
  | .comment .. => some .comment
  | .cdata .. => some .cdata
  | _ => none

private theorem Verbatim.verbatim?_inside (kind : Verbatim) (tag : Tag) (body : List Char) :
    (kind.inside tag body).verbatim? = some kind := by
  cases kind <;> rfl

/-! ### Occurrences in a text -/

/-- At the offset `place` of the text stands `pattern`. -/
def OccursAt (pattern text : List Char) (place : Nat) : Prop := pattern <+: dropBytes text place

instance (pattern text : List Char) (place : Nat) : Decidable (OccursAt pattern text place) :=
  inferInstanceAs (Decidable (pattern <+: dropBytes text place))

/-- At or behind the offset `start`, `pattern` occurs at `place` first. -/
structure IsFirstFrom (start : Nat) (pattern text : List Char) (place : Nat) : Prop where
  start_le : start ≤ place
  occurs : OccursAt pattern text place
  first : ∀ other, start ≤ other → other < place → ¬ OccursAt pattern text other

section Occurrences

variable {pattern front tail s : List Char} {place : Nat}

private theorem OccursAt.exists_split (h : OccursAt pattern (front ++ tail) place)
    (hne : pattern ≠ []) (hplace : byteLength front ≤ place) :
    ∃ body rest, tail = body ++ (pattern ++ rest) ∧ place = byteLength front + byteLength body := by
  obtain ⟨rest, hrest⟩ := h
  unfold dropBytes at hrest
  split at hrest
  · next before after hsplit =>
      obtain ⟨htext, rfl⟩ := splitAt?_eq_some hsplit
      rcases List.append_eq_append_iff.mp htext with ⟨body, rfl, rfl⟩ | ⟨body, rfl, rfl⟩
      · exact ⟨body, rest, by rw [hrest], byteLength_append front body⟩
      · have hnil : body = [] := by
          by_cases hbody : body = []
          · exact hbody
          · have hpos := byteLength_pos hbody
            rw [byteLength_append] at hplace
            omega
        subst hnil
        exact ⟨[], rest, by rw [hrest]; rfl, by simp⟩
  · exact absurd (List.append_eq_nil_iff.mp hrest).1 hne

private theorem exists_occursAt_of_isInfix (front : List Char) (hs : s <+: tail)
    (h : pattern <:+: s) :
    ∃ place, byteLength front ≤ place ∧
      place + byteLength pattern ≤ byteLength front + byteLength s ∧
      OccursAt pattern (front ++ tail) place := by
  obtain ⟨rest, rfl⟩ := hs
  obtain ⟨before, after, rfl⟩ := h
  refine ⟨byteLength (front ++ before), ?_, ?_, ?_⟩
  · simp
  · simp only [byteLength_append]
    omega
  · have hsplit : front ++ (before ++ pattern ++ after ++ rest) =
        (front ++ before) ++ (pattern ++ (after ++ rest)) := by simp
    rw [OccursAt, hsplit, dropBytes_append]
    exact List.prefix_append pattern (after ++ rest)

private theorem IsFirstFrom.not_isInfix
    (h : IsFirstFrom (byteLength front) pattern (front ++ tail) place)
    (hs : s <+: tail) (hlength : byteLength front + byteLength s < place + byteLength pattern) :
    ¬ pattern <:+: s := by
  intro hinfix
  obtain ⟨other, hstart, hend, hoccurs⟩ := exists_occursAt_of_isInfix front hs hinfix
  exact h.first other hstart (by omega) hoccurs

end Occurrences

namespace Reading

variable {r : Reading} {opened : List Nat} {s : List Char}

/-! ### From the opener to the terminator -/

/-- The tag that is opened for a construct whose text is passed over. -/
def verbatimTag (kind : Verbatim) (start : Nat) : Tag :=
  { start, nameStart := start + 1, seen := kind.opener.tail.reverse }

private theorem Between.readAll_opener (h : r.Between opened) (kind : Verbatim) :
    r.readAll kind.opener =
      ⟨r.pos + byteLength kind.opener, kind.inside (verbatimTag kind r.pos) [], opened⟩ := by
  cases kind with
  | comment => exact h.openComment
  | cdata => exact h.openCdata

/-- As long as the terminator is not in what stands behind the opener, all of it is passed over. -/
theorem Between.readAll_inside (h : r.Between opened) (kind : Verbatim)
    (hfree : ¬ kind.terminator <:+: s) :
    r.readAll (kind.opener ++ s) =
      ⟨r.pos + byteLength kind.opener + byteLength s,
        kind.inside (verbatimTag kind r.pos) s.reverse, opened⟩ := by
  have hends : ∀ t u, s = t ++ u → t ≠ [] → kind.ends (t.reverse ++ []) = false := by
    intro t u hsplit _
    rw [List.append_nil, Bool.eq_false_iff]
    intro hend
    have hsuffix := List.reverse_prefix.mp ((kind.ends_iff t.reverse).mp hend)
    exact hfree (hsuffix.isInfix.trans (hsplit ▸ List.infix_append' [] t u))
  rw [readAll_append, h.readAll_opener,
    readAll_before_end (kind.step_inside (verbatimTag kind r.pos) opened) s [] _ hends,
    List.append_nil]

private theorem Between.readAll_terminator (h : r.Between opened) (kind : Verbatim)
    {body : List Char} (hbody : EndsFirst kind.terminator body) :
    (r.readAll (kind.opener ++ (body ++ kind.terminator))).Between opened := by
  cases kind with
  | comment => exact h.comment hbody
  | cdata => exact h.cdata hbody

/-! ### Any way to the opener -/

private theorem exists_readAll_of_moves {text before rest : List Char}
    (htext : text = before ++ rest) (moves : List Move) :
    ∃ read more, text = read ++ more ∧
      moves.foldl (Move.apply text) (({} : Reading).readAll before) =
        ({} : Reading).readAll read := by
  induction moves generalizing before rest with
  | nil => exact ⟨before, rest, htext, rfl⟩
  | cons move moves ih =>
      obtain ⟨s, ⟨more, hmore⟩, hnext⟩ := readsIn_apply text (({} : Reading).readAll before) move
      rw [readAll_pos, Nat.zero_add, htext, dropBytes_append] at hmore
      rw [List.foldl_cons, hnext, ← readAll_append]
      exact ih (by rw [htext, List.append_assoc, hmore])

private theorem upTo_append_of_le {front : List Char} {offset : Nat} (h : byteLength front ≤ offset)
    (tail : List Char) :
    upTo (front ++ tail) offset =
      (({} : Reading).readAll front).readAll (takeBytes tail (offset - byteLength front)) := by
  rw [upTo_eq_readAll, takeBytes_append_of_le h, readAll_append]

private theorem advance_eq_upTo {front : List Char} {offset : Nat} (h : byteLength front ≤ offset)
    (tail : List Char) :
    (({} : Reading).readAll front).advance (front ++ tail) offset =
      upTo (front ++ tail) offset := by
  rw [upTo_append_of_le h, advance_eq_readAll, readAll_pos, Nat.zero_add,
    dropBytes_append]

private theorem endsFirst_of_isFirstFrom {front body terminator rest : List Char} {place : Nat}
    (h : IsFirstFrom (byteLength front) terminator (front ++ (body ++ (terminator ++ rest))) place)
    (hplace : place = byteLength front + byteLength body) : EndsFirst terminator body := by
  intro before after hsplit
  by_cases hafter : after = []
  · exact hafter
  · have hlength := congrArg byteLength hsplit
    have hpos := byteLength_pos hafter
    rw [byteLength_append, byteLength_append] at hlength
    have hprefix : before ++ terminator <+: body ++ (terminator ++ rest) :=
      ⟨after ++ rest, by rw [← List.append_assoc, ← hsplit, List.append_assoc]⟩
    exact absurd (List.suffix_append before terminator).isInfix
      (h.not_isInfix hprefix (by omega))

section Behind

variable {before tail : List Char} {kind : Verbatim} {offset place : Nat}

private theorem upTo_behind_opener (h : byteLength (before ++ kind.opener) ≤ offset) :
    upTo (before ++ kind.opener ++ tail) offset =
      (({} : Reading).readAll before).readAll
        (kind.opener ++ takeBytes tail (offset - byteLength (before ++ kind.opener))) := by
  rw [upTo_append_of_le h, readAll_append, readAll_append]

/-- Behind the opener the reading is inside, as long as there is no terminator in what it passes. -/
theorem upTo_inside (hcontent : (({} : Reading).readAll before).phase.isContent = true)
    (h : byteLength (before ++ kind.opener) ≤ offset)
    (hfree : ¬ kind.terminator <:+:
      takeBytes tail (offset - byteLength (before ++ kind.opener))) :
    (upTo (before ++ kind.opener ++ tail) offset).phase.verbatim? = some kind ∧
      (upTo (before ++ kind.opener ++ tail) offset).openTags =
        (({} : Reading).readAll before).openTags := by
  have hbetween : (({} : Reading).readAll before).Between
      (({} : Reading).readAll before).openTags := ⟨hcontent, rfl⟩
  rw [upTo_behind_opener h, hbetween.readAll_inside kind hfree]
  exact ⟨kind.verbatim?_inside _ _, rfl⟩

private theorem upTo_terminator (hcontent : (({} : Reading).readAll before).phase.isContent = true)
    (h : IsFirstFrom (byteLength (before ++ kind.opener)) kind.terminator
      (before ++ kind.opener ++ tail) place) :
    (upTo (before ++ kind.opener ++ tail) (place + 3)).Between
      (({} : Reading).readAll before).openTags := by
  obtain ⟨body, more, rfl, hend⟩ := h.occurs.exists_split kind.terminator_ne_nil h.start_le
  have hbetween : (({} : Reading).readAll before).Between
      (({} : Reading).readAll before).openTags := ⟨hcontent, rfl⟩
  have hlength : place + 3 - byteLength (before ++ kind.opener) =
      byteLength (body ++ kind.terminator) := by
    rw [hend, byteLength_append body, kind.byteLength_terminator]
    omega
  rw [upTo_behind_opener (Nat.le_add_right_of_le h.start_le), hlength,
    ← List.append_assoc body, takeBytes_append]
  exact hbetween.readAll_terminator kind (endsFirst_of_isFirstFrom h hend)

end Behind

/-- A run that stands between tags before the opener of a comment or of character data goes on as
the reading up to each further offset does. Behind the opener it is inside this construct, with the
same open tags, up to the end of the first terminator, or to the end of the text if there is
none. -/
theorem verbatim_until_terminator (text : List Char) (moves : List Move) (kind : Verbatim)
    (r : Reading) (hr : r = moves.foldl (Move.apply text) {}) (hcontent : r.phase.isContent = true)
    (hopener : OccursAt kind.opener text r.pos) :
    let behind := r.pos + byteLength kind.opener
    (∀ offset, r.pos ≤ offset → r.advance text offset = upTo text offset) ∧
    (∀ place, IsFirstFrom behind kind.terminator text place →
      (∀ offset, behind ≤ offset → offset ≤ place + 2 →
        (upTo text offset).phase.verbatim? = some kind ∧
          (upTo text offset).openTags = r.openTags) ∧
      (upTo text (place + 3)).phase.isContent = true ∧
        (upTo text (place + 3)).openTags = r.openTags) ∧
    ((∀ place, behind ≤ place → ¬ OccursAt kind.terminator text place) →
      ∀ offset, behind ≤ offset →
        (upTo text offset).phase.verbatim? = some kind ∧
          (upTo text offset).openTags = r.openTags) := by
  intro behind
  obtain ⟨before, rest, htext, hread⟩ := exists_readAll_of_moves (List.nil_append text).symm moves
  rw [readAll_nil, ← hr] at hread
  have hpos : r.pos = byteLength before := by rw [hread, readAll_pos, Nat.zero_add]
  obtain ⟨tail, rfl⟩ : kind.opener <+: rest := by
    rwa [OccursAt, hpos, htext, dropBytes_append] at hopener
  have hbehind : behind = byteLength (before ++ kind.opener) := by rw [byteLength_append, ← hpos]
  have hsplit : text = before ++ kind.opener ++ tail := by rw [htext, List.append_assoc]
  rw [hbehind, hsplit]
  rw [hread] at hcontent hpos ⊢
  refine ⟨fun offset hoffset => ?_, fun place hplace => ⟨fun offset hoffset hbound => ?_, ?_⟩,
    fun habsent offset hoffset => upTo_inside hcontent hoffset fun hinfix => ?_⟩
  · rw [List.append_assoc]
    exact advance_eq_upTo (hpos ▸ hoffset) _
  · refine upTo_inside hcontent hoffset (hplace.not_isInfix (takeBytes_isPrefix tail _) ?_)
    have hlength := floorOffset_le tail (offset - byteLength (before ++ kind.opener))
    rw [byteLength_takeBytes, kind.byteLength_terminator]
    omega
  · obtain ⟨hafter, hopened⟩ := upTo_terminator hcontent hplace
    exact ⟨hafter, hopened⟩
  · obtain ⟨place, hplace, -, hoccurs⟩ :=
      exists_occursAt_of_isInfix (before ++ kind.opener) (takeBytes_isPrefix tail _) hinfix
    exact habsent place hplace hoccurs

/-- The text `<a><!-->é-->`. -/
private def overlappingText : List Char :=
  ['<', 'a', '>', '<', '!', '-', '-', '>', 'é', '-', '-', '>']

/-- The `>` right behind the opener ends no comment: the first terminator stands at 10. -/
theorem verbatim_until_terminator_overlapping :
    let r := [.advance 1, .advance 3].foldl (Move.apply overlappingText) {}
    r.phase.isContent = true ∧ OccursAt Verbatim.comment.opener overlappingText r.pos ∧
      IsFirstFrom 7 Verbatim.comment.terminator overlappingText 10 ∧
      (∀ offset, 7 ≤ offset → offset ≤ 12 →
        (upTo overlappingText offset).phase.verbatim? = some .comment ∧
          (upTo overlappingText offset).openTags = [0]) ∧
      (upTo overlappingText 13).phase.isContent = true ∧
      (upTo overlappingText 13).openTags = [0] := by
  intro r
  have hcontent : r.phase.isContent = true := by decide
  have hopener : OccursAt Verbatim.comment.opener overlappingText r.pos := by decide
  have hfirst : IsFirstFrom 7 Verbatim.comment.terminator overlappingText 10 := by
    refine ⟨by decide, by decide, fun other hstart hplace => ?_⟩
    obtain rfl | rfl | rfl : other = 7 ∨ other = 8 ∨ other = 9 := by omega
    all_goals decide
  have hreads := verbatim_until_terminator overlappingText [.advance 1, .advance 3] .comment r rfl
    hcontent hopener
  exact ⟨hcontent, hopener, hfirst, hreads.2.1 10 hfirst⟩

end Reading

end XamlAssist.Document
