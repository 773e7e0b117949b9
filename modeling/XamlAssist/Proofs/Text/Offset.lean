import XamlAssist.Text.Offset

/-!
# Counting bytes
-/

namespace XamlAssist.Text

@[simp] theorem byteLength_nil : byteLength [] = 0 := rfl

@[simp] theorem byteLength_cons (c : Char) (cs : List Char) :
    byteLength (c :: cs) = c.utf8Size + byteLength cs := rfl

@[simp] theorem byteLength_append (s t : List Char) :
    byteLength (s ++ t) = byteLength s + byteLength t := by
  induction s with
  | nil => simp
  | cons c s ih => simp [ih, Nat.add_assoc]

@[simp] theorem byteLength_reverse (s : List Char) : byteLength s.reverse = byteLength s := by
  induction s with
  | nil => rfl
  | cons c s ih =>
      rw [List.reverse_cons, byteLength_append, ih, byteLength_cons, byteLength_cons,
        byteLength_nil, Nat.add_zero, Nat.add_comm]

theorem byteLength_pos {s : List Char} (h : s ≠ []) : 0 < byteLength s := by
  cases s with
  | nil => exact absurd rfl h
  | cons c s => exact Nat.add_pos_left c.utf8Size_pos _

@[simp] theorem dropBytes_zero (text : List Char) : dropBytes text 0 = text := by
  simp [dropBytes, splitAt?]

/-! ### Places -/

@[simp] theorem splitAt?_append (s t : List Char) :
    splitAt? (s ++ t) (byteLength s) = some (s, t) := by
  induction s with
  | nil => cases t <;> rfl
  | cons c s ih =>
      obtain ⟨size, hsize⟩ : ∃ size, c.utf8Size = size + 1 :=
        ⟨c.utf8Size - 1, by have := c.utf8Size_pos; omega⟩
      have hoffset : byteLength (c :: s) = size + byteLength s + 1 := by
        rw [byteLength_cons, hsize]
        omega
      rw [List.cons_append, hoffset, splitAt?, if_pos (by omega)]
      simp [hsize, show size + byteLength s + 1 - (size + 1) = byteLength s by omega, ih]

theorem splitAt?_eq_some {text before after : List Char} {offset : Nat}
    (h : splitAt? text offset = some (before, after)) :
    text = before ++ after ∧ byteLength before = offset := by
  induction text generalizing offset before with
  | nil =>
      cases offset with
      | zero =>
          obtain ⟨rfl, rfl⟩ := by simpa [splitAt?] using h
          exact ⟨rfl, rfl⟩
      | succ offset => simp [splitAt?] at h
  | cons c text ih =>
      cases offset with
      | zero =>
          obtain ⟨rfl, rfl⟩ := by simpa [splitAt?] using h
          exact ⟨rfl, rfl⟩
      | succ offset =>
          rw [splitAt?] at h
          split at h
          · obtain ⟨⟨rest, after'⟩, hrest, heq⟩ := Option.map_eq_some_iff.mp h
            obtain ⟨rfl, rfl⟩ := by simpa using heq
            obtain ⟨rfl, hsize⟩ := ih hrest
            refine ⟨rfl, ?_⟩
            rw [byteLength_cons]
            omega
          · simp at h

theorem isPlace_iff {text : List Char} {offset : Nat} :
    isPlace text offset = true ↔
      ∃ before after, text = before ++ after ∧ byteLength before = offset := by
  constructor
  · intro h
    obtain ⟨⟨before, after⟩, hsplit⟩ := Option.isSome_iff_exists.mp h
    exact ⟨before, after, splitAt?_eq_some hsplit⟩
  · rintro ⟨before, after, rfl, rfl⟩
    simp [isPlace]

theorem le_of_isPlace {text : List Char} {offset : Nat} (h : isPlace text offset = true) :
    offset ≤ byteLength text := by
  obtain ⟨before, after, rfl, rfl⟩ := isPlace_iff.mp h
  rw [byteLength_append]
  exact Nat.le_add_right _ _

theorem isPlace_append_left {text : List Char} {offset : Nat} (h : isPlace text offset = true)
    (more : List Char) : isPlace (text ++ more) offset = true := by
  obtain ⟨before, after, rfl, rfl⟩ := isPlace_iff.mp h
  exact isPlace_iff.mpr ⟨before, after ++ more, by simp, rfl⟩

theorem between?_append (s m t : List Char) :
    between? (s ++ (m ++ t)) (byteLength s) (byteLength s + byteLength m) = some m := by
  simp [between?]

theorem Span.ofOffsets_toNat (start stop : Nat) (h : stop < 4294967296) (hle : start ≤ stop) :
    (Span.ofOffsets start stop).start.toNat = start ∧
      (Span.ofOffsets start stop).stop.toNat = stop := by
  simp only [ofOffsets, Nat.max_eq_right hle]
  constructor <;> simp <;> omega

/-- In a text of less than 4 GiB a span gives back the text between its bounds. -/
theorem Span.read_ofOffsets (s m t : List Char)
    (h : byteLength (s ++ (m ++ t)) < 4294967296) :
    (Span.ofOffsets (byteLength s) (byteLength s + byteLength m)).read (s ++ (m ++ t)) = m := by
  simp only [byteLength_append] at h
  obtain ⟨hstart, hstop⟩ :=
    ofOffsets_toNat (byteLength s) (byteLength s + byteLength m) (by omega) (by omega)
  rw [read, hstart, hstop, between?_append, Option.getD_some]

theorem Span.text_ofOffsets {text s m t : List Char} {start stop : Nat}
    (htext : text = s ++ (m ++ t)) (hsize : byteLength text < 4294967296)
    (hstart : start = byteLength s) (hstop : stop = byteLength s + byteLength m) :
    (Span.ofOffsets start stop).text text = String.ofList m := by
  subst htext hstart hstop
  rw [Span.text, Span.read_ofOffsets s m t hsize]

/-- The span names a piece of the text, verbatim, and `near` holds of the text before and behind the
piece. -/
def Span.Stands (span : Span) (text : List Char) (near : List Char → List Char → Prop) : Prop :=
  ∃ before piece after, text = before ++ (piece ++ after) ∧
    span.start.toNat = byteLength before ∧ span.stop.toNat = byteLength before + byteLength piece ∧
    span.read text = piece ∧ near before after

theorem Span.Stands.mono {span : Span} {text : List Char} {P Q : List Char → List Char → Prop}
    (h : span.Stands text P) (hPQ : ∀ before after, P before after → Q before after) :
    span.Stands text Q := by
  obtain ⟨before, piece, after, htext, hstart, hstop, hread, hP⟩ := h
  exact ⟨before, piece, after, htext, hstart, hstop, hread, hPQ before after hP⟩

theorem Span.stands_ofOffsets {near : List Char → List Char → Prop} (s m t : List Char)
    (hsize : byteLength (s ++ (m ++ t)) < 4294967296) (hnear : near s t) :
    (Span.ofOffsets (byteLength s) (byteLength s + byteLength m)).Stands (s ++ (m ++ t)) near := by
  have hread := Span.read_ofOffsets s m t hsize
  simp only [byteLength_append] at hsize
  obtain ⟨hstart, hstop⟩ :=
    Span.ofOffsets_toNat (byteLength s) (byteLength s + byteLength m) (by omega) (by omega)
  exact ⟨s, m, t, rfl, hstart, hstop, hread, hnear⟩

private theorem exists_piece_of_isPlace {text : List Char} {start stop : Nat}
    (hstart : isPlace text start = true) (hstop : isPlace text stop = true) (hle : start ≤ stop) :
    ∃ s m t, text = s ++ (m ++ t) ∧ byteLength s = start ∧ byteLength s + byteLength m = stop := by
  obtain ⟨s, s', htext, hs⟩ := isPlace_iff.mp hstart
  obtain ⟨u, t, htext', hu⟩ := isPlace_iff.mp hstop
  rcases List.append_eq_append_iff.mp (htext.symm.trans htext') with ⟨m, rfl, rfl⟩ | ⟨m, rfl, rfl⟩
  · exact ⟨s, m, t, htext, hs, by rw [← byteLength_append, hu]⟩
  · have hm : m = [] := by
      by_cases hm : m = []
      · exact hm
      · have hpos := byteLength_pos hm
        rw [byteLength_append] at hs
        omega
    subst hm
    rw [List.append_nil] at hs
    exact ⟨u, [], s', htext', hs, by rw [byteLength_nil, hu, Nat.add_zero]⟩

theorem Span.stands_of_isPlace {read rest : List Char} {start stop : Nat}
    (hsize : byteLength (read ++ rest) < 4294967296) (hstart : isPlace read start = true)
    (hstop : isPlace read stop = true) (hle : start ≤ stop) :
    (Span.ofOffsets start stop).Stands (read ++ rest) (fun _ _ => True) ∧
      (Span.ofOffsets start stop).stop.toNat ≤ byteLength read := by
  have hbound := le_of_isPlace hstop
  obtain ⟨s, m, t, rfl, rfl, rfl⟩ := exists_piece_of_isPlace hstart hstop hle
  have hsplit : s ++ (m ++ t) ++ rest = s ++ (m ++ (t ++ rest)) := by simp
  have hsmall : byteLength s + byteLength m < 4294967296 := by
    rw [byteLength_append] at hsize
    omega
  rw [hsplit] at hsize ⊢
  refine ⟨Span.stands_ofOffsets s m (t ++ rest) hsize trivial, ?_⟩
  rwa [(Span.ofOffsets_toNat _ _ hsmall hle).2]

/-! ### Beginnings of a text -/

theorem dropBytes_append (s t : List Char) : dropBytes (s ++ t) (byteLength s) = t := by
  rw [dropBytes, splitAt?_append]

@[simp] theorem takeBytes_append (s t : List Char) :
    takeBytes (s ++ t) (byteLength s) = s := by
  induction s with
  | nil =>
      cases t with
      | nil => rfl
      | cons c t =>
          have hc := c.utf8Size_pos
          simp [takeBytes]
          omega
  | cons c s ih => simp [takeBytes, ih]

theorem takeBytes_isPrefix (text : List Char) (offset : Nat) : takeBytes text offset <+: text := by
  induction text generalizing offset with
  | nil => exact List.prefix_refl []
  | cons c text ih =>
      rw [takeBytes]
      split
      · exact (List.prefix_cons_inj c).mpr (ih _)
      · exact List.nil_prefix

theorem takeBytes_isPrefix_of_le {text : List Char} {m n : Nat} (h : m ≤ n) :
    takeBytes text m <+: takeBytes text n := by
  induction text generalizing m n with
  | nil => exact List.prefix_refl []
  | cons c text ih =>
      rw [takeBytes, takeBytes]
      split
      · rw [if_pos (by omega)]
        exact (List.prefix_cons_inj c).mpr (ih (by omega))
      · exact List.nil_prefix

/-- One more byte adds no character or the one that it completes. -/
theorem takeBytes_succ (text : List Char) (offset : Nat) :
    takeBytes text (offset + 1) = takeBytes text offset ∨
      ∃ c, takeBytes text (offset + 1) = takeBytes text offset ++ [c] ∧
        byteLength (takeBytes text offset) + c.utf8Size = offset + 1 := by
  induction text generalizing offset with
  | nil => exact .inl rfl
  | cons c text ih =>
      simp only [takeBytes]
      by_cases hfits : c.utf8Size ≤ offset
      · have hsub : offset + 1 - c.utf8Size = offset - c.utf8Size + 1 := by omega
        rw [if_pos hfits, if_pos (by omega), hsub]
        rcases ih (offset - c.utf8Size) with h | ⟨d, hd, hsize⟩
        · exact .inl (by rw [h])
        · refine .inr ⟨d, by rw [hd, List.cons_append], ?_⟩
          rw [byteLength_cons]
          omega
      · by_cases hlast : c.utf8Size ≤ offset + 1
        · have hrest : takeBytes text 0 = [] := takeBytes_append [] text
          have hzero : offset + 1 - c.utf8Size = 0 := by omega
          rw [if_pos hlast, if_neg hfits, hzero, hrest]
          refine .inr ⟨c, rfl, ?_⟩
          rw [byteLength_nil]
          omega
        · rw [if_neg hlast, if_neg hfits]
          exact .inl rfl

theorem byteLength_takeBytes (text : List Char) (offset : Nat) :
    byteLength (takeBytes text offset) = floorOffset text offset := by
  induction text generalizing offset with
  | nil => rfl
  | cons c text ih =>
      rw [takeBytes, floorOffset]
      split
      · rw [byteLength_cons, ih]
      · rfl

theorem floorOffset_le (text : List Char) (offset : Nat) : floorOffset text offset ≤ offset := by
  induction text generalizing offset with
  | nil => exact Nat.zero_le offset
  | cons c text ih =>
      rw [floorOffset]
      split
      · have hrest := ih (offset - c.utf8Size)
        omega
      · exact Nat.zero_le offset

theorem takeBytes_append_of_le {s : List Char} {offset : Nat} (h : byteLength s ≤ offset)
    (t : List Char) : takeBytes (s ++ t) offset = s ++ takeBytes t (offset - byteLength s) := by
  induction s generalizing offset with
  | nil => rfl
  | cons c s ih =>
      rw [byteLength_cons] at h
      rw [List.cons_append, takeBytes, if_pos (by omega), ih (by omega), byteLength_cons,
        Nat.sub_add_eq, List.cons_append]

theorem le_floorOffset {text : List Char} {place offset : Nat} (h : isPlace text place = true)
    (hle : place ≤ offset) : place ≤ floorOffset text offset := by
  obtain ⟨before, after, rfl, rfl⟩ := isPlace_iff.mp h
  rw [← byteLength_takeBytes, takeBytes_append_of_le hle, byteLength_append]
  exact Nat.le_add_right _ _

theorem takeBytes_append_of_ge {s : List Char} {offset : Nat} (h : offset ≤ byteLength s)
    (t : List Char) : takeBytes (s ++ t) offset = takeBytes s offset := by
  induction s generalizing offset with
  | nil =>
      obtain rfl : offset = 0 := Nat.le_zero.mp h
      exact takeBytes_append [] t
  | cons c s ih =>
      rw [byteLength_cons] at h
      rw [List.cons_append, takeBytes, takeBytes]
      split
      · rw [ih (by omega)]
      · rfl

theorem exists_takeBytes_append (text : List Char) (offset : Nat) :
    ∃ rest, text = takeBytes text offset ++ rest ∧
      dropBytes text (floorOffset text offset) = rest := by
  obtain ⟨rest, hrest⟩ := takeBytes_isPrefix text offset
  have hdrop := dropBytes_append (takeBytes text offset) rest
  rw [hrest, byteLength_takeBytes] at hdrop
  exact ⟨rest, hrest.symm, hdrop⟩

theorem isPlace_floorOffset (text : List Char) (offset : Nat) :
    isPlace text (floorOffset text offset) = true := by
  obtain ⟨rest, htext, -⟩ := exists_takeBytes_append text offset
  exact isPlace_iff.mpr ⟨_, rest, htext, byteLength_takeBytes text offset⟩

theorem floorOffset_of_isPlace {text : List Char} {place : Nat} (h : isPlace text place = true) :
    floorOffset text place = place :=
  Nat.le_antisymm (floorOffset_le text place) (le_floorOffset h (Nat.le_refl place))

private theorem floorOffset_mono (text : List Char) {m n : Nat} (h : m ≤ n) :
    floorOffset text m ≤ floorOffset text n :=
  le_floorOffset (isPlace_floorOffset text m) (Nat.le_trans (floorOffset_le text m) h)

theorem floorOffset_max (text : List Char) (m n : Nat) :
    floorOffset text (max m n) = max (floorOffset text m) (floorOffset text n) := by
  rcases Nat.le_total m n with h | h
  · rw [Nat.max_eq_right h, Nat.max_eq_right (floorOffset_mono text h)]
  · rw [Nat.max_eq_left h, Nat.max_eq_left (floorOffset_mono text h)]

end XamlAssist.Text
