import XamlAssist.Proofs.Document.TagReading

/-!
# What one character does to the tags

A character may lead on inside the current tag, end it, or open another one; the stack of open tags
changes with it. A tag is opened at the place where the reading stands, so a tag that was left does
not come back: if a reading is inside a tag, or has a tag open, that began before some earlier
place, then so it was at that place (`inTag_of_readAll`, `suffix_of_readAll`).
-/

namespace XamlAssist.Document

open Text

/-- The places of a tag to which the character `c` at the offset `pos` may lead from a place. -/
inductive Spot.Leads (pos : Nat) (c : Char) : Spot → Spot → Prop
  | name : Leads pos c .name .name
  | gap (spot : Spot) : Leads pos c spot .gap
  | startAttribute (spot : Spot) : Leads pos c spot (.attributeName pos none)
  | attributeName (start : Nat) (stop next : Option Nat) :
      Leads pos c (.attributeName start stop) (.attributeName start next)
  | equals (start stop : Nat) (next : Option Nat) :
      Leads pos c (.attributeName start next) (.beforeValue ⟨start, stop⟩)
  | beforeValue (name : Bounds) : Leads pos c (.beforeValue name) (.beforeValue name)
  | startValue (name : Bounds) (quote : Option Char) (start : Nat) :
      Leads pos c (.beforeValue name) (.value name quote start)
  | value (name : Bounds) (quote : Option Char) (start : Nat) :
      Leads pos c (.value name quote start) (.value name quote start)
  | endValue (name : Bounds) (start : Nat) :
      Leads pos c (.value name (some c) start) (.afterValue name ⟨start, pos⟩)

/-- Whether a place is inside an attribute value. -/
def Spot.isValue : Spot → Bool
  | .value .. => true
  | _ => false

/-- The same tag with the character `c` read. -/
structure Tag.Follows (next tag : Tag) (c : Char) : Prop where
  start : next.start = tag.start
  seen : next.seen = c :: tag.seen

namespace Reading

/-- The open tags without the one that the text ends inside of. -/
def endedTags (r : Reading) : List Nat :=
  if r.phase.isInsideTag then r.openTags.drop 1 else r.openTags

/-- What the character `c` does to the current tag and to the open tags. -/
inductive Effect (r : Reading) (c : Char) (next : Reading) : Prop
  | outside : r.phase.isInsideTag = false → next.phase.isInsideTag = false →
      next.openTags = r.openTags → Effect r c next
  /-- A tag opens and takes the place of an unfinished one. -/
  | opens : c = '<' → (∀ tag spot, r.phase = .inTag tag spot → spot.isValue = false) →
      next.phase = .inTag { start := r.pos, nameStart := r.pos + 1 } .name →
      next.openTags = r.pos :: r.endedTags → Effect r c next
  /-- The tag goes on. A `<` may stand in a value only. -/
  | goesOn {tag nextTag : Tag} {spot nextSpot : Spot} : r.phase = .inTag tag spot →
      next.phase = .inTag nextTag nextSpot → nextTag.Follows tag c → spot.Leads r.pos c nextSpot →
      (c = '<' → spot.isValue = true) → next.openTags = r.openTags → Effect r c next
  /-- A tag ends. Either it stays open, or it is taken away and perhaps the tag below it. -/
  | ends {tag : Tag} {spot : Spot} (count : Nat) : c = '>' → r.phase = .inTag tag spot →
      next.phase.isContent = true → next.openTags = r.openTags.drop count → Effect r c next
  /-- A tag turns out to be a comment or character data. -/
  | turns {tag : Tag} : r.phase = .inTag tag .name → next.phase.isInsideTag = false →
      next.phase.isContent = false → next.openTags = r.endedTags → Effect r c next

section Effect

variable {r : Reading} {c : Char} {tag : Tag} {spot : Spot}

theorem endedTags_inTag (hphase : r.phase = .inTag tag spot) : r.endedTags = r.openTags.drop 1 := by
  rw [endedTags, hphase]
  rfl

theorem endedTags_outside (hphase : r.phase.isInsideTag = false) : r.endedTags = r.openTags := by
  rw [endedTags, hphase]
  rfl

private theorem effect_moveTo (hphase : r.phase = .inTag tag spot) {next : Tag} {nextSpot : Spot}
    (hnext : next.Follows tag c) (hleads : spot.Leads r.pos c nextSpot)
    (hvalue : c = '<' → spot.isValue = true) : r.Effect c (r.moveTo next nextSpot) :=
  .goesOn hphase rfl hnext hleads hvalue rfl

private theorem effect_abandonTag (hphase : r.phase = .inTag tag spot) (hc : c = '<')
    (hvalue : spot.isValue = false) : r.Effect c r.abandonTag := by
  refine .opens hc (fun other place heq => ?_) rfl ?_
  · obtain ⟨-, rfl⟩ := Phase.inTag.inj (hphase.symm.trans heq)
    exact hvalue
  · rw [endedTags_inTag hphase]
    rfl

private theorem effect_closeTag (hphase : r.phase = .inTag tag spot) (hc : c = '>') (last : Tag) :
    r.Effect c (r.closeTag last) :=
  .ends _ hc hphase rfl rfl

private theorem effect_readName (hphase : r.phase = .inTag tag .name) :
    r.Effect c (r.readName tag c) := by
  unfold readName
  dsimp only
  split
  · exact .turns hphase rfl rfl (endedTags_inTag hphase).symm
  split
  · exact .turns hphase rfl rfl (endedTags_inTag hphase).symm
  split
  · next hc =>
      have hlt : c ≠ '<' := by simp [hc]
      split
      · exact effect_moveTo hphase ⟨rfl, rfl⟩ .name (absurd · hlt)
      · exact effect_moveTo hphase ⟨rfl, rfl⟩ (.gap _) (absurd · hlt)
  split
  · next hc => exact effect_closeTag hphase hc _
  split
  · next hc => exact effect_abandonTag hphase hc rfl
  next hlt =>
    split
    · exact effect_moveTo hphase ⟨rfl, rfl⟩ (.gap _) (absurd · hlt)
    · exact effect_moveTo hphase ⟨rfl, rfl⟩ .name (absurd · hlt)

private theorem effect_readGap (hphase : r.phase = .inTag tag .gap) :
    r.Effect c (r.readSpot tag .gap c) := by
  unfold readSpot
  dsimp only
  split
  · next hc => exact effect_closeTag hphase hc _
  split
  · next hc => exact effect_abandonTag hphase hc rfl
  next hlt =>
    split
    · exact effect_moveTo hphase ⟨rfl, rfl⟩ (.gap _) (absurd · hlt)
    · exact effect_moveTo hphase ⟨rfl, rfl⟩ (.startAttribute _) (absurd · hlt)

private theorem effect_readAttributeName {start : Nat} {stop : Option Nat}
    (hphase : r.phase = .inTag tag (.attributeName start stop)) :
    r.Effect c (r.readSpot tag (.attributeName start stop) c) := by
  unfold readSpot
  dsimp only
  split
  · next hc => exact effect_moveTo hphase ⟨rfl, rfl⟩ (.equals _ _ _) (absurd · (by simp [hc]))
  split
  · next hc => exact effect_closeTag hphase hc _
  split
  · next hc => exact effect_abandonTag hphase hc rfl
  next hlt =>
    split
    · exact effect_moveTo hphase ⟨rfl, rfl⟩ (.gap _) (absurd · hlt)
    split
    · exact effect_moveTo hphase ⟨rfl, rfl⟩ (.attributeName _ _ _) (absurd · hlt)
    split
    · exact effect_moveTo hphase ⟨rfl, rfl⟩ (.startAttribute _) (absurd · hlt)
    · exact effect_moveTo hphase ⟨rfl, rfl⟩ (.attributeName _ _ _) (absurd · hlt)

private theorem effect_readBeforeValue {name : Bounds}
    (hphase : r.phase = .inTag tag (.beforeValue name)) :
    r.Effect c (r.readSpot tag (.beforeValue name) c) := by
  unfold readSpot
  dsimp only
  split
  · next hc =>
      refine effect_moveTo hphase ⟨rfl, rfl⟩ (.startValue _ _ _) fun hlt => ?_
      subst hlt
      exact absurd hc (by decide)
  split
  · next hc => exact effect_closeTag hphase hc _
  split
  · next hc => exact effect_abandonTag hphase hc rfl
  next hlt =>
    split
    · exact effect_moveTo hphase ⟨rfl, rfl⟩ (.beforeValue _) (absurd · hlt)
    · exact effect_moveTo hphase ⟨rfl, rfl⟩ (.startValue _ _ _) (absurd · hlt)

private theorem effect_readValue {name : Bounds} {quote : Option Char} {start : Nat}
    (hphase : r.phase = .inTag tag (.value name quote start)) :
    r.Effect c (r.readSpot tag (.value name quote start) c) := by
  cases quote with
  | some quote =>
      unfold readSpot
      dsimp only
      split
      · next hc => exact effect_moveTo hphase ⟨rfl, rfl⟩ (hc ▸ .endValue _ _) fun _ => rfl
      · exact effect_moveTo hphase ⟨rfl, rfl⟩ (.value _ _ _) fun _ => rfl
  | none =>
      unfold readSpot
      dsimp only
      split
      · exact effect_moveTo hphase ⟨rfl, rfl⟩ (.gap _) fun _ => rfl
      split
      · next hc => exact effect_closeTag hphase hc _
      · exact effect_moveTo hphase ⟨rfl, rfl⟩ (.value _ _ _) fun _ => rfl

private theorem effect_readAfterValue {name value : Bounds}
    (hphase : r.phase = .inTag tag (.afterValue name value)) :
    r.Effect c (r.readSpot tag (.afterValue name value) c) := by
  unfold readSpot
  dsimp only
  split
  · next hc => exact effect_closeTag hphase hc _
  split
  · next hc =>
      refine effect_moveTo hphase ⟨rfl, rfl⟩ (.gap _) fun hlt => ?_
      subst hlt
      exact absurd hc (by decide)
  split
  · next hc => exact effect_abandonTag hphase hc rfl
  · next hlt => exact effect_moveTo hphase ⟨rfl, rfl⟩ (.startAttribute _) (absurd · hlt)

private theorem effect_react (r : Reading) (c : Char) : r.Effect c (r.react c) := by
  unfold react
  split
  · next last hphase =>
      have houtside : r.phase.isInsideTag = false := by rw [hphase]; rfl
      split
      · next hc =>
          refine .opens hc (fun tag spot heq => ?_) rfl (by rw [endedTags_outside houtside]; rfl)
          exact Phase.noConfusion (hphase.symm.trans heq)
      · exact .outside houtside houtside rfl
  · next hphase => exact .outside (by rw [hphase]; rfl) (by dsimp only; split <;> rfl) rfl
  · next hphase => exact .outside (by rw [hphase]; rfl) (by dsimp only; split <;> rfl) rfl
  · next tag spot hphase =>
      cases spot with
      | name => exact effect_readName hphase
      | gap => exact effect_readGap hphase
      | attributeName start stop => exact effect_readAttributeName hphase
      | beforeValue name => exact effect_readBeforeValue hphase
      | value name quote start => exact effect_readValue hphase
      | afterValue name value => exact effect_readAfterValue hphase

theorem effect_step (r : Reading) (c : Char) : r.Effect c (r.step c) := by
  cases effect_react r c with
  | outside hbefore hafter htags => exact .outside hbefore hafter htags
  | opens hc hvalue hafter htags => exact .opens hc hvalue hafter htags
  | goesOn hbefore hafter hnext hleads hvalue htags =>
      exact .goesOn hbefore hafter hnext hleads hvalue htags
  | ends count hc hbefore hafter htags => exact .ends count hc hbefore hafter htags
  | turns hbefore hinside hcontent htags => exact .turns hbefore hinside hcontent htags

end Effect

/-! ### Looking back -/

variable {r : Reading}

theorem isInsideTag_of_isContent {phase : Phase} (h : phase.isContent = true) :
    phase.isInsideTag = false := by
  cases phase with
  | inTag => exact Bool.noConfusion h
  | _ => rfl

theorem isContent_of_isInsideTag {phase : Phase} (h : phase.isInsideTag = true) :
    phase.isContent = false := by
  cases phase with
  | content => exact Bool.noConfusion h
  | _ => rfl

theorem ne_inTag {phase : Phase} (h : phase.isInsideTag = false) (tag : Tag) (spot : Spot) :
    phase ≠ .inTag tag spot := by
  rintro rfl
  exact Bool.noConfusion h

theorem inTag_or_outside (phase : Phase) :
    (∃ tag spot, phase = .inTag tag spot) ∨ phase.isInsideTag = false := by
  cases phase with
  | inTag tag spot => exact .inl ⟨tag, spot, rfl⟩
  | _ => exact .inr rfl

theorem inTag_of_step {c : Char} {tag : Tag} {spot : Spot}
    (h : (r.step c).phase = .inTag tag spot) (hold : tag.start ≠ r.pos) :
    ∃ before place, r.phase = .inTag before place ∧ before.start = tag.start ∧
      place.Leads r.pos c spot ∧ (c = '<' → place.isValue = true) ∧
      (r.step c).openTags = r.openTags := by
  have hinside : (r.step c).phase.isInsideTag = true := by rw [h]; rfl
  cases effect_step r c with
  | outside _ hafter _ => exact absurd hinside (by simp [hafter])
  | opens _ _ hafter _ =>
      obtain ⟨rfl, -⟩ := Phase.inTag.inj (h.symm.trans hafter)
      exact absurd rfl hold
  | goesOn hbefore hafter hnext hleads hvalue htags =>
      obtain ⟨rfl, rfl⟩ := Phase.inTag.inj (h.symm.trans hafter)
      exact ⟨_, _, hbefore, hnext.start.symm, hleads, hvalue, htags⟩
  | ends _ _ _ hafter _ => exact absurd hinside (by simp [isInsideTag_of_isContent hafter])
  | turns _ hafter _ _ => exact absurd hinside (by simp [hafter])

/-- A reading inside a tag that began before an earlier place was inside this tag there. -/
theorem inTag_of_readAll {s : List Char} {tag : Tag} {spot : Spot}
    (h : (r.readAll s).phase = .inTag tag spot) (hold : tag.start < r.pos) :
    ∃ before place, r.phase = .inTag before place ∧ before.start = tag.start ∧
      (r.readAll s).openTags = r.openTags := by
  induction s generalizing r with
  | nil => exact ⟨tag, spot, h, rfl, rfl⟩
  | cons c s ih =>
      obtain ⟨next, nextSpot, hnext, hstart, htags⟩ := ih h (Nat.lt_add_right _ hold)
      obtain ⟨before, place, hbefore, hsame, -, -, hkept⟩ := inTag_of_step hnext (by omega)
      exact ⟨before, place, hbefore, hsame.trans hstart, htags.trans hkept⟩

private theorem suffix_of_step {c : Char} {base : List Nat} (h : base <:+ (r.step c).openTags)
    (hold : ∀ start ∈ base, start < r.pos) : base <:+ r.openTags := by
  have hended : r.endedTags <:+ r.openTags := by
    unfold endedTags
    split
    · exact List.drop_suffix 1 r.openTags
    · exact List.suffix_refl r.openTags
  cases effect_step r c with
  | outside _ _ htags => exact htags ▸ h
  | opens _ _ _ htags =>
      rw [htags, List.suffix_cons_iff] at h
      rcases h with rfl | h
      · exact absurd (hold r.pos List.mem_cons_self) (Nat.lt_irrefl _)
      · exact h.trans hended
  | goesOn _ _ _ _ _ htags => exact htags ▸ h
  | ends count _ _ _ htags => exact (htags ▸ h).trans (List.drop_suffix count r.openTags)
  | turns _ _ _ htags => exact (htags ▸ h).trans hended

/-- Tags that are open and began before an earlier place were open there. -/
theorem suffix_of_readAll {s : List Char} {base : List Nat} (h : base <:+ (r.readAll s).openTags)
    (hold : ∀ start ∈ base, start < r.pos) : base <:+ r.openTags := by
  induction s generalizing r with
  | nil => exact h
  | cons c s ih =>
      exact suffix_of_step (ih h fun start hstart => Nat.lt_add_right _ (hold start hstart)) hold

end Reading

end XamlAssist.Document
