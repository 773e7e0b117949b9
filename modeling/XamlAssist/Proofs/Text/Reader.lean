import XamlAssist.Proofs.Text.Utf8

/-!
# Stopping in a text and going on

A reader stops where whole characters end. It is not shown what stands behind its place.

However often a scanner stops on its way, also at offsets inside a character, it ends as if it had
gone straight to the largest offset. It is shown the whole text, so it comes to the same state in
all texts that begin alike only if no step looks beyond the byte that it passes
(`Scanner.LooksBack`).
-/

namespace XamlAssist.Text

namespace Reader

variable {ρ : Type} (reader : Reader ρ) {r : ρ} {offset : Nat} {s : List Char}

theorem readAll_cons (r : ρ) (c : Char) (s : List Char) :
    reader.readAll r (c :: s) = reader.readAll (reader.step r c) s := rfl

theorem readAll_append (r : ρ) (s t : List Char) :
    reader.readAll r (s ++ t) = reader.readAll (reader.readAll r s) t :=
  List.foldl_append

theorem pos_readAll (r : ρ) (s : List Char) :
    reader.pos (reader.readAll r s) = reader.pos r + byteLength s := by
  induction s generalizing r with
  | nil => rfl
  | cons c s ih => rw [readAll_cons, ih, reader.pos_step, byteLength_cons, Nat.add_assoc]

theorem readUpTo_eq_readAll (r : ρ) (offset : Nat) (text : List Char) :
    reader.readUpTo r offset text =
      reader.readAll r (takeBytes text (offset - reader.pos r)) := by
  induction text generalizing r with
  | nil => rfl
  | cons c text ih =>
      have hc := c.utf8Size_pos
      rw [readUpTo, takeBytes]
      by_cases hfits : reader.pos r + c.utf8Size ≤ offset
      · rw [if_pos hfits, if_pos (by omega), ih, reader.pos_step, readAll_cons, Nat.sub_add_eq]
      · rw [if_neg hfits, if_neg (by omega)]
        rfl

theorem readUpTo_append_of_le (t : List Char) (h : reader.pos r + byteLength s ≤ offset) :
    reader.readUpTo r offset (s ++ t) = reader.readUpTo (reader.readAll r s) offset t := by
  rw [readUpTo_eq_readAll, readUpTo_eq_readAll, takeBytes_append_of_le (by omega), readAll_append,
    pos_readAll, Nat.sub_add_eq]

theorem readUpTo_append_of_lt (t : List Char) (h : offset < reader.pos r + byteLength s) :
    reader.readUpTo r offset (s ++ t) = reader.readUpTo r offset s := by
  rw [readUpTo_eq_readAll, readUpTo_eq_readAll, takeBytes_append_of_ge (by omega)]

theorem readUpTo_concat_of_lt {c : Char} (h : offset < reader.pos r + byteLength (s ++ [c])) :
    reader.readUpTo r offset (s ++ [c]) = reader.readUpTo r offset s := by
  by_cases hs : offset < reader.pos r + byteLength s
  · exact reader.readUpTo_append_of_lt [c] hs
  · rw [byteLength_append, byteLength_cons, byteLength_nil] at h
    have hall := reader.readUpTo_append_of_le (r := r) [] (Nat.le_of_not_lt hs)
    rw [List.append_nil] at hall
    have hlast : ¬ reader.pos (reader.readAll r s) + c.utf8Size ≤ offset := by
      rw [pos_readAll]
      omega
    rw [reader.readUpTo_append_of_le [c] (Nat.le_of_not_lt hs), hall]
    exact if_neg hlast

theorem advance_eq_readAll (hr : reader.pos r = 0) (text : List Char) (offset : Nat) :
    reader.advance r text offset = reader.readAll r (takeBytes text offset) := by
  rw [advance, hr, dropBytes_zero, readUpTo_eq_readAll, hr, Nat.sub_zero]

theorem pos_advance (hr : reader.pos r = 0) (text : List Char) (offset : Nat) :
    reader.pos (reader.advance r text offset) = floorOffset text offset := by
  rw [advance_eq_readAll reader hr, pos_readAll, hr, byteLength_takeBytes, Nat.zero_add]

end Reader

namespace Scanner

variable {σ : Type} (scanner : Scanner σ) {s : σ} {bytes : List UInt8}

theorem steps_succ (bytes : List UInt8) (count : Nat) (s : σ) :
    scanner.steps bytes (count + 1) s = scanner.steps bytes count (scanner.step bytes s) := rfl

theorem steps_add (bytes : List UInt8) (m n : Nat) (s : σ) :
    scanner.steps bytes (m + n) s = scanner.steps bytes n (scanner.steps bytes m s) := by
  induction m generalizing s with
  | zero => rw [Nat.zero_add]; rfl
  | succ m ih => rw [Nat.succ_add, steps_succ, ih, steps_succ]

private theorem pos_steps {count : Nat} (h : scanner.pos s + count ≤ bytes.length) :
    scanner.pos (scanner.steps bytes count s) = scanner.pos s + count := by
  induction count generalizing s with
  | zero => rfl
  | succ count ih =>
      have hstep := scanner.pos_step bytes s (by omega)
      rw [steps_succ, ih (by omega), hstep]
      omega

theorem pos_advance (hs : scanner.pos s = 0) (text : List Char) (offset : Nat) :
    scanner.pos (scanner.advance s text offset) = floorOffset text offset := by
  have hle := le_of_isPlace (isPlace_floorOffset text offset)
  rw [advance, pos_steps, hs, Nat.sub_zero, Nat.zero_add]
  rwa [hs, Nat.sub_zero, Nat.zero_add, length_utf8]

private theorem advance_advance (hs : scanner.pos s = 0) (text : List Char) (m n : Nat) :
    scanner.advance (scanner.advance s text m) text n = scanner.advance s text (max m n) := by
  rw [advance, pos_advance scanner hs, advance, advance, hs, ← steps_add, floorOffset_max]
  congr 1
  omega

theorem foldl_advance (hs : scanner.pos s = 0) (text : List Char) (offsets : List Nat) :
    offsets.foldl (scanner.advance · text ·) s = scanner.advance s text (offsets.foldl max 0) := by
  have hfold (m : Nat) : offsets.foldl (scanner.advance · text ·) (scanner.advance s text m) =
      scanner.advance s text (offsets.foldl max m) := by
    induction offsets generalizing m with
    | nil => rfl
    | cons n offsets ih => rw [List.foldl_cons, List.foldl_cons, advance_advance scanner hs, ih]
  have hstart : scanner.advance s text 0 = s := by
    rw [advance, Nat.le_zero.mp (floorOffset_le text 0), Nat.zero_sub]
    rfl
  simpa only [hstart] using hfold 0

theorem advance_floorOffset (text : List Char) (offset : Nat) :
    scanner.advance s text (floorOffset text offset) = scanner.advance s text offset := by
  rw [advance, advance, floorOffset_of_isPlace (isPlace_floorOffset text offset)]

/-- From a state with `inv` a step looks at no byte behind the one that it passes, and `inv` holds
again of the next state. -/
structure LooksBack (inv : σ → Prop) : Prop where
  inv_step : ∀ bytes s, inv s → inv (scanner.step bytes s)
  step_eq : ∀ bytes other s, inv s →
    bytes.take (scanner.pos s + 1) = other.take (scanner.pos s + 1) →
      scanner.step bytes s = scanner.step other s

variable {scanner} {inv : σ → Prop} {other : List UInt8}

private theorem LooksBack.steps_eq (h : scanner.LooksBack inv) {count : Nat} (hs : inv s)
    (hlength : scanner.pos s + count ≤ bytes.length)
    (hbytes : bytes.take (scanner.pos s + count) = other.take (scanner.pos s + count)) :
    scanner.steps bytes count s = scanner.steps other count s := by
  induction count generalizing s with
  | zero => rfl
  | succ count ih =>
      have hpos := scanner.pos_step bytes s (by omega)
      have hnext : scanner.pos (scanner.step bytes s) + count = scanner.pos s + (count + 1) := by
        omega
      have hfirst : bytes.take (scanner.pos s + 1) = other.take (scanner.pos s + 1) := by
        have htake := congrArg (List.take (scanner.pos s + 1)) hbytes
        rwa [List.take_take, List.take_take, Nat.min_eq_left (by omega)] at htake
      rw [steps_succ, steps_succ, ← h.step_eq bytes other s hs hfirst]
      exact ih (h.inv_step bytes s hs) (hnext ▸ hlength) (hnext ▸ hbytes)

/-- Texts with the same bytes up to a place of both are scanned up to there alike. -/
theorem LooksBack.advance_eq (h : scanner.LooksBack inv) (hs : inv s) (hpos : scanner.pos s = 0)
    {text other : List Char} {place : Nat} (htext : isPlace text place = true)
    (hother : isPlace other place = true)
    (hbytes : (utf8 other).take place = (utf8 text).take place) :
    scanner.advance s other place = scanner.advance s text place := by
  have hlength := le_of_isPlace hother
  rw [advance, advance, floorOffset_of_isPlace htext, floorOffset_of_isPlace hother, hpos,
    Nat.sub_zero]
  apply h.steps_eq hs
  · rwa [hpos, Nat.zero_add, length_utf8]
  · rwa [hpos, Nat.zero_add]

end Scanner

end XamlAssist.Text
