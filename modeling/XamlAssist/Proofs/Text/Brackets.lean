/-!
# Angle brackets that match

A text is balanced if it closes what it opens. A piece of a balanced text may close brackets that
were opened before it; how many these are tells whether the piece is balanced itself.
-/

namespace XamlAssist.Text

/-- Equally many brackets open and close, and none closes before it opens. -/
structure Balanced (text : List Char) : Prop where
  count_eq : text.count '<' = text.count '>'
  count_le : ∀ start, start <+: text → start.count '>' ≤ start.count '<'

/-- The text closes all brackets that it opens, and besides them `depth` brackets that are open
before it. -/
structure Closes (depth : Nat) (text : List Char) : Prop where
  count_eq : text.count '>' = depth + text.count '<'
  count_le : ∀ start, start <+: text → start.count '>' ≤ depth + start.count '<'

theorem closes_zero_iff {text : List Char} : Closes 0 text ↔ Balanced text := by
  constructor
  · rintro ⟨heq, hle⟩
    exact ⟨by omega, fun start hstart => by simpa using hle start hstart⟩
  · rintro ⟨heq, hle⟩
    exact ⟨by omega, fun start hstart => by simpa using hle start hstart⟩

variable {depth : Nat} {text : List Char}

theorem Closes.balanced_iff (h : Closes depth text) : Balanced text ↔ depth = 0 := by
  constructor
  · intro hbalanced
    have hcount := h.count_eq
    rw [hbalanced.count_eq] at hcount
    omega
  · rintro rfl
    exact closes_zero_iff.mp h

/-! ### One character -/

theorem closes_nil_iff : Closes depth [] ↔ depth = 0 := by
  constructor
  · intro h
    simpa using h.count_eq.symm
  · rintro rfl
    exact ⟨rfl, fun start hstart => by simp [List.prefix_nil.mp hstart]⟩

theorem closes_cons_iff {c : Char} {next : Nat}
    (hnext : depth + [c].count '<' = next + [c].count '>') :
    Closes depth (c :: text) ↔ Closes next text := by
  have hcount (d : Char) (rest : List Char) :
      (c :: rest).count d = [c].count d + rest.count d := by
    rw [← List.count_append, List.singleton_append]
  constructor
  · rintro ⟨heq, hle⟩
    refine ⟨?_, fun start hstart => ?_⟩
    · rw [hcount '<' text, hcount '>' text] at heq
      omega
    · have hstart := hle (c :: start) ((List.prefix_cons_inj c).mpr hstart)
      rw [hcount '<' start, hcount '>' start] at hstart
      omega
  · rintro ⟨heq, hle⟩
    refine ⟨?_, fun start hstart => ?_⟩
    · rw [hcount '<' text, hcount '>' text]
      omega
    · rcases List.prefix_cons_iff.mp hstart with rfl | ⟨rest, rfl, hrest⟩
      · simp
      · have hrest := hle rest hrest
        rw [hcount '<' rest, hcount '>' rest]
        omega

theorem closes_open_iff : Closes depth ('<' :: text) ↔ Closes (depth + 1) text :=
  closes_cons_iff rfl

theorem closes_close_iff : Closes (depth + 1) ('>' :: text) ↔ Closes depth text :=
  closes_cons_iff rfl

theorem not_closes_close : ¬ Closes 0 ('>' :: text) := by
  intro h
  exact absurd (h.count_le ['>'] (by simp)) (by decide)

private theorem closes_other_iff {c : Char} (hopen : c ≠ '<') (hclose : c ≠ '>') :
    Closes depth (c :: text) ↔ Closes depth text :=
  closes_cons_iff (by simp [hopen, hclose])

/-- Induction on the characters of a text that closes all open brackets. -/
theorem Closes.induct {motive : (depth : Nat) → (text : List Char) → Closes depth text → Prop}
    (nil : motive 0 [] (closes_nil_iff.mpr rfl))
    (opens : ∀ {depth : Nat} {text : List Char} (h : Closes (depth + 1) text),
      motive (depth + 1) text h → motive depth ('<' :: text) (closes_open_iff.mpr h))
    (closes : ∀ {depth : Nat} {text : List Char} (h : Closes depth text),
      motive depth text h → motive (depth + 1) ('>' :: text) (closes_close_iff.mpr h))
    (other : ∀ {depth : Nat} {c : Char} {text : List Char} (hopen : c ≠ '<') (hclose : c ≠ '>')
      (h : Closes depth text), motive depth text h →
        motive depth (c :: text) ((closes_other_iff hopen hclose).mpr h))
    {depth : Nat} {text : List Char} (h : Closes depth text) : motive depth text h := by
  induction text generalizing depth with
  | nil =>
      obtain rfl := closes_nil_iff.mp h
      exact nil
  | cons c text ih =>
      by_cases hopen : c = '<'
      · subst hopen
        exact opens _ (ih (closes_open_iff.mp h))
      by_cases hclose : c = '>'
      · subst hclose
        cases depth with
        | zero => exact absurd h not_closes_close
        | succ depth => exact closes _ (ih (closes_close_iff.mp h))
      · exact other hopen hclose _ (ih ((closes_other_iff hopen hclose).mp h))

/-! ### Concatenations -/

theorem Closes.append {first second : Nat} {s t : List Char} (hs : Closes first s)
    (ht : Closes second t) : Closes (first + second) (s ++ t) := by
  refine ⟨?_, fun start hstart => ?_⟩
  · rw [List.count_append, List.count_append, hs.count_eq, ht.count_eq]
    omega
  · rcases List.prefix_or_prefix_of_prefix hstart (List.prefix_append s t)
      with hwithin | ⟨rest, rfl⟩
    · have hle := hs.count_le start hwithin
      omega
    · have hle := ht.count_le rest ((List.prefix_append_right_inj s).mp hstart)
      rw [List.count_append, List.count_append, hs.count_eq]
      omega

/-- The end of a text closes what it opens and something of what was opened before it. -/
theorem Closes.of_append {s t : List Char} (h : Closes depth (s ++ t)) :
    ∃ inner, Closes inner t := by
  have hs := h.count_le s (List.prefix_append s t)
  refine ⟨depth + s.count '<' - s.count '>', ?_, fun start hstart => ?_⟩
  · have heq := h.count_eq
    rw [List.count_append, List.count_append] at heq
    omega
  · have hle := h.count_le (s ++ start) ((List.prefix_append_right_inj s).mpr hstart)
    rw [List.count_append, List.count_append] at hle
    omega

theorem closes_of_plain (hopen : '<' ∉ text) (hclose : '>' ∉ text) : Closes 0 text := by
  refine ⟨?_, fun start hstart => ?_⟩
  · rw [List.count_eq_zero.mpr hopen, List.count_eq_zero.mpr hclose]
  · rw [List.count_eq_zero.mpr fun h => hclose (hstart.subset h)]
    exact Nat.zero_le _

theorem balanced_of_plain (hopen : '<' ∉ text) (hclose : '>' ∉ text) : Balanced text :=
  closes_zero_iff.mp (closes_of_plain hopen hclose)

/-- Where a balanced text is cut in two, both parts are balanced or none is. -/
theorem Balanced.left_iff_right {s t : List Char} (h : Balanced (s ++ t)) :
    Balanced s ↔ Balanced t := by
  have heq := h.count_eq
  rw [List.count_append, List.count_append] at heq
  constructor
  · intro hs
    refine ⟨?_, fun start hstart => ?_⟩
    · have hcount := hs.count_eq
      omega
    · have hle := h.count_le (s ++ start) ((List.prefix_append_right_inj s).mpr hstart)
      rw [List.count_append, List.count_append, hs.count_eq] at hle
      omega
  · intro ht
    refine ⟨?_, fun start hstart => h.count_le start (hstart.trans (List.prefix_append s t))⟩
    have hcount := ht.count_eq
    omega

theorem exists_closes_intercalate {separator : List Char} (hseparator : Closes 0 separator)
    (pieces : List (List Char)) (h : ∀ piece ∈ pieces, ∃ depth, Closes depth piece) :
    ∃ depth, Closes depth (separator.intercalate pieces) ∧
      (depth = 0 ↔ ∀ piece ∈ pieces, Balanced piece) := by
  induction pieces with
  | nil => exact ⟨0, by simpa using closes_nil_iff.mpr rfl, by simp⟩
  | cons piece pieces ih =>
      obtain ⟨⟨first, hfirst⟩, hpieces⟩ := List.forall_mem_cons.mp h
      obtain ⟨rest, hrest, hzero⟩ := ih hpieces
      refine ⟨first + rest, ?_, ?_⟩
      · cases pieces with
        | nil =>
            obtain rfl : rest = 0 := hzero.mpr (by simp)
            simpa using hfirst
        | cons second others =>
            rw [List.intercalate_cons_cons]
            exact (hfirst.append hseparator).append hrest
      · rw [List.forall_mem_cons, hfirst.balanced_iff, ← hzero]
        omega

end XamlAssist.Text
