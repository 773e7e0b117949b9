import XamlAssist.Proofs.Text.Offset
import XamlAssist.Text.Blank
import XamlAssist.Text.Reader

/-!
# The UTF-8 form of a text

The bytes below 128 in the UTF-8 form of a text are its ASCII characters, so that marks of a format
are found in the bytes where they are in the text.
-/

namespace XamlAssist.Text

@[simp] theorem utf8_nil : utf8 [] = [] := rfl

theorem utf8_cons (c : Char) (text : List Char) :
    utf8 (c :: text) = String.utf8EncodeChar c ++ utf8 text := rfl

@[simp] theorem utf8_append (s t : List Char) : utf8 (s ++ t) = utf8 s ++ utf8 t :=
  List.flatMap_append

private theorem utf8_toList (text : String) : utf8 text.toList = text.toByteArray.data.toList := by
  have hdata : text.toList.utf8Encode.data = (utf8 text.toList).toArray := List.data_toByteArray
  rw [← String.utf8Encode_toList, hdata]

/-- Bytes are the UTF-8 form of at most one text. -/
theorem fromUTF8?_eq_some_iff {bytes : List UInt8} {text : String} :
    String.fromUTF8? ⟨bytes.toArray⟩ = some text ↔ bytes = utf8 text.toList := by
  have hread (bytes : ByteArray) : String.fromUTF8? bytes =
      if h : bytes.IsValidUTF8 then some (String.fromUTF8 bytes h) else none := rfl
  rw [utf8_toList, hread]
  constructor
  · intro h
    by_cases hvalid : ByteArray.IsValidUTF8 ⟨bytes.toArray⟩
    · rw [dif_pos hvalid, Option.some.injEq] at h
      rw [← h]
      rfl
    · rw [dif_neg hvalid] at h
      exact absurd h nofun
  · rintro rfl
    have hbytes : (⟨text.toByteArray.data.toList.toArray⟩ : ByteArray) = text.toByteArray := by
      rw [Array.toArray_toList]
    rw [hbytes, dif_pos text.isValidUTF8]
    rfl

theorem fromUTF8?_utf8 (text : List Char) :
    String.fromUTF8? ⟨(utf8 text).toArray⟩ = some (String.ofList text) :=
  fromUTF8?_eq_some_iff.mpr (by rw [String.toList_ofList])

theorem length_utf8 (text : List Char) : (utf8 text).length = byteLength text := by
  induction text with
  | nil => rfl
  | cons c text ih =>
      rw [utf8_cons, List.length_append, String.length_utf8EncodeChar, ih, byteLength_cons]

theorem take_utf8_append (s t : List Char) : (utf8 (s ++ t)).take (byteLength s) = utf8 s := by
  rw [utf8_append, ← length_utf8, List.take_left]

/-! ### Bytes of single characters -/

private theorem le_or_right {a b : UInt8} (h : 0x80 ≤ b) : 0x80 ≤ a ||| b := by
  rw [UInt8.le_iff_toNat_le] at h ⊢
  rw [UInt8.toNat_or]
  exact Nat.le_trans h Nat.right_le_or

theorem utf8Size_of_lt {c : Char} (h : c.toNat < 0x80) : c.utf8Size = 1 :=
  Char.utf8Size_eq_one_iff.mpr (UInt32.le_iff_toNat_le.mpr (Nat.le_of_lt_succ h))

theorem utf8EncodeChar_of_lt {c : Char} (h : c.toNat < 0x80) :
    String.utf8EncodeChar c = [c.toNat.toUInt8] :=
  String.utf8EncodeChar_eq_singleton (utf8Size_of_lt h)

private theorem le_of_mem_utf8EncodeChar {c : Char} (h : 0x80 ≤ c.toNat) :
    ∀ b ∈ String.utf8EncodeChar c, 0x80 ≤ b := by
  have hone : c.utf8Size ≠ 1 := fun hsize => by
    have hval := UInt32.le_iff_toNat_le.mp (Char.utf8Size_eq_one_iff.mp hsize)
    exact absurd h (Nat.not_le_of_lt (Nat.lt_succ_of_le hval))
  have hpos := c.utf8Size_pos
  have hfour := c.utf8Size_le_four
  obtain hsize | hsize | hsize : c.utf8Size = 2 ∨ c.utf8Size = 3 ∨ c.utf8Size = 4 := by omega
  · rw [String.utf8EncodeChar_eq_cons_cons hsize]
    simp only [List.forall_mem_cons, List.not_mem_nil, false_imp_iff, implies_true, and_true]
    exact ⟨le_or_right (by decide), le_or_right (by decide)⟩
  · rw [String.utf8EncodeChar_eq_cons_cons_cons hsize]
    simp only [List.forall_mem_cons, List.not_mem_nil, false_imp_iff, implies_true, and_true]
    exact ⟨le_or_right (by decide), le_or_right (by decide), le_or_right (by decide)⟩
  · rw [String.utf8EncodeChar_eq_cons_cons_cons_cons hsize]
    simp only [List.forall_mem_cons, List.not_mem_nil, false_imp_iff, implies_true, and_true]
    exact ⟨le_or_right (by decide), le_or_right (by decide), le_or_right (by decide),
      le_or_right (by decide)⟩

theorem toNat_eq_of_mem_utf8EncodeChar {c : Char} {b : UInt8} (hb : b ∈ String.utf8EncodeChar c)
    (hlow : b < 0x80) : c.toNat = b.toNat := by
  by_cases hc : c.toNat < 0x80
  · rw [utf8EncodeChar_of_lt hc, List.mem_singleton] at hb
    rw [hb]
    simp
    omega
  · have hhigh := le_of_mem_utf8EncodeChar (Nat.le_of_not_lt hc) b hb
    exact absurd hlow (UInt8.not_lt.mpr hhigh)

theorem utf8EncodeChar_ne_nil (c : Char) : String.utf8EncodeChar c ≠ [] := by
  rw [ne_eq, ← List.length_eq_zero_iff, String.length_utf8EncodeChar]
  exact Nat.ne_of_gt c.utf8Size_pos

theorem utf8_ne_nil {text : List Char} (h : text ≠ []) : utf8 text ≠ [] := by
  obtain ⟨c, rest, rfl⟩ := List.exists_cons_of_ne_nil h
  rw [utf8_cons]
  exact List.append_ne_nil_of_left_ne_nil (utf8EncodeChar_ne_nil c) _

/-! ### Bytes as characters -/

/-- What the first byte of a character is as a character. -/
def leadChar (c : Char) : Char := Char.ofUInt8 ((String.utf8EncodeChar c).headD 0)

private theorem headD_mem_utf8EncodeChar (c : Char) :
    (String.utf8EncodeChar c).headD 0 ∈ String.utf8EncodeChar c := by
  obtain ⟨b, rest, hbytes⟩ := List.exists_cons_of_ne_nil (utf8EncodeChar_ne_nil c)
  rw [hbytes]
  exact List.mem_cons_self

theorem toNat_ofUInt8 (b : UInt8) : (Char.ofUInt8 b).toNat = b.toNat := rfl

private theorem le_toNat_ofUInt8 {c : Char} (h : 0x80 ≤ c.toNat) {b : UInt8}
    (hb : b ∈ String.utf8EncodeChar c) : 0x80 ≤ (Char.ofUInt8 b).toNat :=
  UInt8.le_iff_toNat_le.mp (le_of_mem_utf8EncodeChar h b hb)

/-- A byte of a character is an ASCII character only if it is the whole character. -/
theorem ofUInt8_eq_iff {a c : Char} (ha : a.toNat < 0x80) {b : UInt8}
    (hb : b ∈ String.utf8EncodeChar c) : Char.ofUInt8 b = a ↔ c = a := by
  by_cases hc : c.toNat < 0x80
  · rw [utf8EncodeChar_of_lt hc, List.mem_singleton] at hb
    have hsame : Char.ofUInt8 b = c := by
      apply Char.toNat_inj.mp
      rw [toNat_ofUInt8, hb]
      simp
      omega
    rw [hsame]
  · have hhigh := le_toNat_ofUInt8 (Nat.le_of_not_lt hc) hb
    constructor
    · rintro rfl
      exact absurd ha (Nat.not_lt_of_le hhigh)
    · rintro rfl
      exact absurd ha hc

theorem leadChar_eq_iff {a c : Char} (ha : a.toNat < 0x80) : leadChar c = a ↔ c = a :=
  ofUInt8_eq_iff ha (headD_mem_utf8EncodeChar c)

theorem le_leadChar {c : Char} (h : 0x80 ≤ c.toNat) : 0x80 ≤ (leadChar c).toNat :=
  le_toNat_ofUInt8 h (headD_mem_utf8EncodeChar c)

@[simp] theorem isMarkupBlank_leadChar (c : Char) :
    isMarkupBlank (leadChar c) = isMarkupBlank c := by
  rw [Bool.eq_iff_iff]
  simp only [isMarkupBlank, Bool.or_eq_true, beq_iff_eq,
    leadChar_eq_iff (show ' '.toNat < 0x80 by decide),
    leadChar_eq_iff (show '\t'.toNat < 0x80 by decide),
    leadChar_eq_iff (show '\r'.toNat < 0x80 by decide),
    leadChar_eq_iff (show '\n'.toNat < 0x80 by decide)]

@[simp] theorem isAsciiBlank_leadChar (c : Char) : isAsciiBlank (leadChar c) = isAsciiBlank c := by
  rw [isAsciiBlank, isAsciiBlank, isMarkupBlank_leadChar, Bool.eq_iff_iff]
  simp only [Bool.or_eq_true, beq_iff_eq, leadChar_eq_iff (show '\x0c'.toNat < 0x80 by decide)]

private theorem getElem?_utf8_append (front rest : List Char) {c : Char} {k : Nat}
    (hk : k < c.utf8Size) :
    (utf8 (front ++ c :: rest))[byteLength front + k]? = (String.utf8EncodeChar c)[k]? := by
  have hlength : k < (String.utf8EncodeChar c).length := by
    rwa [String.length_utf8EncodeChar]
  rw [utf8_append, utf8_cons, List.getElem?_append_right (by rw [length_utf8]; omega), length_utf8,
    Nat.add_sub_cancel_left, List.getElem?_append_left hlength]

theorem charAt?_eq_of_take_eq {bytes other : List UInt8} {i j : Nat}
    (h : bytes.take (i + 1) = other.take (i + 1)) (hj : j ≤ i) :
    charAt? bytes j = charAt? other j := by
  have hbyte := congrArg (·[j]?) h
  simp only [List.getElem?_take, if_pos (Nat.lt_succ_of_le hj)] at hbyte
  rw [charAt?, charAt?, hbyte]

theorem charAt?_lead (front rest : List Char) (c : Char) :
    charAt? (utf8 (front ++ c :: rest)) (byteLength front) = some (leadChar c) := by
  have hbyte := getElem?_utf8_append front rest c.utf8Size_pos
  rw [Nat.add_zero] at hbyte
  obtain ⟨b, bytes, hbytes⟩ := List.exists_cons_of_ne_nil (utf8EncodeChar_ne_nil c)
  rw [charAt?, hbyte, leadChar, hbytes]
  rfl

theorem exists_charAt?_high (front rest : List Char) {c : Char} {k : Nat} (hk : k < c.utf8Size)
    (hc : 0x80 ≤ c.toNat) :
    ∃ d, charAt? (utf8 (front ++ c :: rest)) (byteLength front + k) = some d ∧
      0x80 ≤ d.toNat := by
  have hlength : k < (String.utf8EncodeChar c).length := by
    rwa [String.length_utf8EncodeChar]
  refine ⟨_, ?_, le_toNat_ofUInt8 hc (List.getElem_mem hlength)⟩
  rw [charAt?, getElem?_utf8_append front rest hk, List.getElem?_eq_getElem hlength]
  rfl

/-- The last byte before a place is an ASCII character exactly if this is the last character. -/
theorem charAt?_pred_eq_iff {a : Char} (ha : a.toNat < 0x80) (front rest : List Char) :
    0 < byteLength front ∧ charAt? (utf8 (front ++ rest)) (byteLength front - 1) = some a ↔
      front.getLast? = some a := by
  rcases List.eq_nil_or_concat front with rfl | ⟨init, c, rfl⟩
  · simp
  · have hpos := c.utf8Size_pos
    have hk : c.utf8Size - 1 < c.utf8Size := by omega
    have hlength : c.utf8Size - 1 < (String.utf8EncodeChar c).length := by
      rwa [String.length_utf8EncodeChar]
    have hbyte := getElem?_utf8_append init rest hk
    rw [List.getElem?_eq_getElem hlength] at hbyte
    have hplace : byteLength (init ++ [c]) - 1 = byteLength init + (c.utf8Size - 1) := by
      rw [byteLength_append, byteLength_cons, byteLength_nil]
      omega
    rw [List.concat_eq_append, hplace, List.append_assoc, List.singleton_append, charAt?, hbyte,
      Option.map_some, Option.some.injEq, ofUInt8_eq_iff ha (List.getElem_mem hlength),
      List.getLast?_concat, Option.some.injEq, byteLength_append, byteLength_cons, byteLength_nil]
    exact and_iff_right (by omega)

private theorem exists_concat_of_utf8_eq {front : List Char} {c : Char} (hc : c.toNat < 0x80)
    {bytes : List UInt8} (h : utf8 front = bytes ++ String.utf8EncodeChar c) :
    ∃ init, front = init ++ [c] := by
  rw [utf8EncodeChar_of_lt hc] at h
  rcases List.eq_nil_or_concat front with rfl | ⟨init, d, rfl⟩
  · exact absurd h (by simp)
  · rw [List.concat_eq_append, utf8_append, utf8_cons, utf8_nil, List.append_nil] at h
    have hlast : (String.utf8EncodeChar d).getLast? = some c.toNat.toUInt8 := by
      have hboth := congrArg List.getLast? h
      rw [List.getLast?_append, List.getLast?_concat] at hboth
      rwa [List.getLast?_eq_some_getLast (utf8EncodeChar_ne_nil d)] at hboth ⊢
    have hlow : c.toNat.toUInt8 < 0x80 := by
      rw [UInt8.lt_iff_toNat_lt]
      simp
      omega
    have hnat := toNat_eq_of_mem_utf8EncodeChar (List.mem_of_getLast? hlast) hlow
    have hd : d = c := by
      apply Char.toNat_inj.mp
      rw [hnat]
      simp
      omega
    exact ⟨init, by rw [List.concat_eq_append, hd]⟩

/-- An ASCII text ends the bytes of a text exactly if it ends the text. -/
theorem utf8_isSuffix_iff {mark text : List Char} (hmark : mark.all (·.toNat < 0x80) = true) :
    utf8 mark <:+ utf8 text ↔ mark <:+ text := by
  constructor
  · intro h
    induction mark with
    | nil => exact List.nil_suffix
    | cons c mark ih =>
        simp only [List.all_cons, Bool.and_eq_true, decide_eq_true_eq] at hmark
        obtain ⟨bytes, hbytes⟩ := h
        rw [utf8_cons, ← List.append_assoc] at hbytes
        obtain ⟨front, rfl⟩ := ih hmark.2 ⟨_, hbytes⟩
        rw [utf8_append] at hbytes
        obtain ⟨init, rfl⟩ :=
          exists_concat_of_utf8_eq hmark.1 (List.append_cancel_right hbytes).symm
        exact ⟨init, by simp⟩
  · rintro ⟨front, rfl⟩
    exact ⟨utf8 front, (utf8_append front mark).symm⟩

end XamlAssist.Text
