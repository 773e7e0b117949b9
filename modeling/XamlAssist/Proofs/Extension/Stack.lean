import XamlAssist.Proofs.Extension.Reading

/-!
# Closing a nested extension

Whatever stands inside a nested extension, its `}` brings back the level that its `{` has set aside:
the levels below the current one are never touched. Main statement: `level_behind_nested`.
-/

namespace XamlAssist.Extension.Reading

open Text Cursor

/-- Below the levels in `above`, reading does not touch the level `saved` and those under it. When
their number is reached for the first time, `saved` has just been brought back. -/
theorem readAll_brings_back {r : Reading} {above base : List Level} {saved : Level}
    (houter : r.outer = above ++ saved :: base) (s : List Char)
    (hfirst : ∀ t, t <+: s → t ≠ s → (r.readAll t).nestingLevel ≠ base.length)
    (hback : (r.readAll s).nestingLevel = base.length) :
    ∃ pos, (r.readAll s).pos = pos + 1 ∧ (r.readAll s).level = saved.goOnAt pos ∧
      (r.readAll s).outer = base := by
  induction s generalizing r above with
  | nil =>
      simp only [readAll_nil, nestingLevel, houter, List.length_append, List.length_cons] at hback
      omega
  | cons c s ih =>
      have hrest : ∀ t, t <+: s → t ≠ s → ((r.step c).readAll t).nestingLevel ≠ base.length := by
        intro t ht hne
        exact hfirst (c :: t) ((List.prefix_cons_inj c).mpr ht) (by simpa using hne)
      rcases r.shifts_step c with hsame | ⟨-, -, hpush⟩ | ⟨level, rfl, hpop, hlevel⟩
      · exact ih (hsame.trans houter) hrest hback
      · exact @ih _ (r.setAside :: above) (hpush.trans (by rw [houter, List.cons_append])) hrest
          hback
      · cases above with
        | cons top above =>
            rw [houter, List.cons_append] at hpop
            exact ih (List.cons.inj hpop).2.symm hrest hback
        | nil =>
            rw [houter, List.nil_append] at hpop
            obtain ⟨rfl, hbase⟩ := List.cons.inj hpop
            have hlength : (r.readAll ['}']).nestingLevel = base.length := by
              rw [readAll_cons, readAll_nil, nestingLevel, ← hbase]
            cases s with
            | nil => exact ⟨r.pos, rfl, hlevel, hbase.symm⟩
            | cons d s => exact absurd hlength (hfirst ['}'] (by simp) (by simp))

private theorem takeBytes_of_opens {text : List Char} {i : Nat}
    (h : (upTo text (i + 1)).nestingLevel = (upTo text i).nestingLevel + 1) :
    takeBytes text (i + 1) = takeBytes text i ++ ['{'] ∧ byteLength (takeBytes text i) = i ∧
      (upTo text (i + 1)).outer = (upTo text i).setAside :: (upTo text i).outer := by
  rcases takeBytes_succ text i with hsame | ⟨c, hnext, hsize⟩
  · rw [upTo_eq_readAll, upTo_eq_readAll, hsame] at h
    omega
  · have hstep : upTo text (i + 1) = (upTo text i).step c := by
      simp [upTo_eq_readAll, hnext]
    rw [hstep] at h ⊢
    rcases (upTo text i).shifts_step c with hkept | ⟨rfl, -, hpush⟩ | ⟨level, -, hpop, -⟩
    · rw [nestingLevel, hkept, nestingLevel] at h
      omega
    · have hbrace : '{'.utf8Size = 1 := rfl
      exact ⟨hnext, by omega, hpush⟩
    · simp only [nestingLevel, hpop, List.length_cons] at h
      omega

private theorem byteLength_takeBytes_of_changes {text : List Char} {k : Nat}
    (h : upTo text (k + 1) ≠ upTo text k) : byteLength (takeBytes text (k + 1)) = k + 1 := by
  rcases takeBytes_succ text k with hsame | ⟨c, hnext, hsize⟩
  · exact absurd (by rw [upTo_eq_readAll, upTo_eq_readAll, hsame]) h
  · simpa [hnext] using hsize

section Nested

variable {text : List Char} {i j : Nat}

private theorem nestingLevel_ne_of_inside
    (hopen : (upTo text (i + 1)).nestingLevel = (upTo text i).nestingLevel + 1)
    (hfirst : ∀ k, i < k → k < j →
      (upTo text (k + 1)).nestingLevel ≠ (upTo text i).nestingLevel)
    {k : Nat} (hik : i < k) (hkj : k ≤ j) :
    (upTo text k).nestingLevel ≠ (upTo text i).nestingLevel := by
  obtain ⟨k, rfl⟩ : ∃ m, k = m + 1 := ⟨k - 1, by omega⟩
  by_cases hk : k = i
  · rw [hk, hopen]
    exact Nat.succ_ne_self _
  · exact hfirst k (by omega) (by omega)

/-- The text from the byte at `i` that opens a level to the byte at `j` that closes it, and the
levels behind it. -/
theorem exists_nested
    (hopen : (upTo text (i + 1)).nestingLevel = (upTo text i).nestingLevel + 1) (hij : i < j)
    (hclose : (upTo text (j + 1)).nestingLevel = (upTo text i).nestingLevel)
    (hfirst : ∀ k, i < k → k < j →
      (upTo text (k + 1)).nestingLevel ≠ (upTo text i).nestingLevel) :
    ∃ nested, takeBytes text (j + 1) = takeBytes text i ++ nested ∧
      byteLength (takeBytes text i) = i ∧ i + byteLength nested = j + 1 ∧
      (upTo text (j + 1)).level = (upTo text i).setAside.goOnAt j ∧
      (upTo text (j + 1)).outer = (upTo text i).outer := by
  obtain ⟨hbrace, hi, hpush⟩ := takeBytes_of_opens hopen
  have hj : byteLength (takeBytes text (j + 1)) = j + 1 :=
    byteLength_takeBytes_of_changes fun h =>
      nestingLevel_ne_of_inside hopen hfirst hij (Nat.le_refl j) (by rw [← hclose, h])
  have hprefix : takeBytes text (i + 1) <+: takeBytes text (j + 1) :=
    takeBytes_isPrefix_of_le (by omega)
  obtain ⟨s, hs⟩ := hprefix
  have hbehind : upTo text (j + 1) = (upTo text (i + 1)).readAll s := by
    simp only [upTo_eq_readAll, ← hs, readAll_append]
  have hstart : byteLength (takeBytes text (i + 1)) = i + 1 := by
    rw [hbrace, byteLength_append, hi]
    rfl
  have hinside : ∀ t, t <+: s → t ≠ s →
      ((upTo text (i + 1)).readAll t).nestingLevel ≠ (upTo text i).outer.length := by
    rintro t ⟨u, rfl⟩ hne
    have hu := byteLength_pos (s := u) (by simpa using hne)
    simp only [← hs, byteLength_append, hstart] at hj
    have hwithin : takeBytes text (i + 1) ++ t <+: text :=
      .trans ⟨u, by simpa using hs⟩ (takeBytes_isPrefix text (j + 1))
    have hhere := upTo_of_isPrefix hwithin
    rw [byteLength_append, hstart, readAll_append, ← upTo_eq_readAll] at hhere
    rw [← hhere]
    exact nestingLevel_ne_of_inside hopen hfirst (by omega) (by omega)
  obtain ⟨pos, hpos, hlevel, houter⟩ :=
    @readAll_brings_back _ [] _ _ hpush s hinside (hbehind ▸ hclose)
  have hpos : pos = j := by
    rw [← hbehind, upTo_eq_readAll, readAll_pos, hj, Nat.zero_add] at hpos
    omega
  refine ⟨'{' :: s, ?_, hi, ?_, ?_, ?_⟩
  · rw [← hs, hbrace, List.append_assoc]
    rfl
  · rw [← hs, byteLength_append, hstart] at hj
    have hsize : '{'.utf8Size = 1 := rfl
    rw [byteLength_cons]
    omega
  · rw [hbehind, hlevel, hpos]
  · rw [hbehind, houter]

end Nested

/-- If the byte at `i` opens a level and the byte at `j` is the first that closes it again, then
behind `j` the level around is as it was before `i`, but behind its value: the value starts where it
did, or else at `i`, and ends behind `j`. So the text of the value ends with the nested one. -/
theorem level_behind_nested (text : List Char) (i j : Nat) (hsize : byteLength text < 4294967296)
    (hopen : (upTo text (i + 1)).nestingLevel = (upTo text i).nestingLevel + 1) (hij : i < j)
    (hclose : (upTo text (j + 1)).nestingLevel = (upTo text i).nestingLevel)
    (hfirst : ∀ k, i < k → k < j →
      (upTo text (k + 1)).nestingLevel ≠ (upTo text i).nestingLevel) :
    let before := upTo text i
    let behind := upTo text (j + 1)
    behind.level =
        { before.level with
          phase := .afterValue
          argument.valueStart := some (before.level.argument.valueStart.getD i)
          argument.valueStop := some (j + 1) } ∧
      behind.outer = before.outer ∧
      ∃ nested value, between? text i (j + 1) = some nested ∧
        behind.argumentValueSpan.map (·.read text) = some value ∧ nested <:+ value := by
  intro before behind
  obtain ⟨nested, hnested, hi, hj, hlevel, houter⟩ := exists_nested hopen hij hclose hfirst
  obtain ⟨rest, hrest⟩ := takeBytes_isPrefix text (j + 1)
  have hread := hasRead_readAll (takeBytes text i)
  rw [← upTo_eq_readAll] at hread
  have hpos : before.pos = i := hread.pos_eq.trans hi
  have hlevel : behind.level =
      { before.level with
        phase := .afterValue
        argument.valueStart := some (before.level.argument.valueStart.getD i)
        argument.valueStop := some (j + 1) } := by
    rw [← hpos]
    exact hlevel
  obtain ⟨s, t, hst, hstart⟩ : ∃ s t, takeBytes text i = s ++ t ∧
      byteLength s = before.level.argument.valueStart.getD i := by
    cases hvalue : before.level.argument.valueStart with
    | none => exact ⟨takeBytes text i, [], (List.append_nil _).symm, hi⟩
    | some start => exact isPlace_iff.mp (hread.marked.level.valueStart start hvalue)
  refine ⟨hlevel, houter, nested, t ++ nested, ?_, ?_, List.suffix_append t nested⟩
  · have hbetween := between?_append (takeBytes text i) nested rest
    rwa [← List.append_assoc, ← hnested, hrest, hi, hj] at hbetween
  · have hspan : behind.argumentValueSpan =
        some (.ofOffsets (byteLength s) (byteLength s + byteLength (t ++ nested))) := by
      have hstop : byteLength s + byteLength (t ++ nested) = j + 1 := by
        rw [← byteLength_append, ← List.append_assoc, ← hst, byteLength_append, hi, hj]
      rw [hstop, hstart]
      simp [argumentValueSpan, hlevel]
    have htext : s ++ ((t ++ nested) ++ rest) = text := by
      rw [← hrest, hnested, hst]
      simp
    have hvalue := Span.read_ofOffsets s (t ++ nested) rest (by rwa [htext])
    rw [htext] at hvalue
    rw [hspan, Option.map_some, hvalue]

/-- The value `{A B={C}}`. -/
private def nestedText : List Char := ['{', 'A', ' ', 'B', '=', '{', 'C', '}', '}']

theorem level_behind_nested_in_named :
    (upTo nestedText 8).level.argument =
        { nameStart := some 3, nameStop := some 4, valueStart := some 5, valueStop := some 8 } ∧
      (upTo nestedText 8).outer = [] ∧
      ∃ nested value, between? nestedText 5 8 = some nested ∧
        (upTo nestedText 8).argumentValueSpan.map (·.read nestedText) = some value ∧
        nested <:+ value := by
  have hfirst : ∀ k, 5 < k → k < 7 →
      (upTo nestedText (k + 1)).nestingLevel ≠ (upTo nestedText 5).nestingLevel := by
    intro k hk hk'
    obtain rfl : k = 6 := by omega
    decide
  obtain ⟨hlevel, houter, hvalue⟩ :=
    level_behind_nested nestedText 5 7 (by decide) (by decide) (by decide) (by decide) hfirst
  exact ⟨by rw [hlevel]; decide, houter, hvalue⟩

end XamlAssist.Extension.Reading
