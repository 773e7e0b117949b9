import Mathlib.Data.List.Forall2
import XamlAssist.Proofs.Text.Utf8
import XamlAssist.Resource.Index

/-!
# The binary form of an index

The layout of a resource with a binary index is a relation between the entries and the bytes. Each
reader takes exactly one piece of that layout off the front, so an index is read if and only if it
has the layout. Main statement: `Index.ofBytes_eq_ok_iff_isBinary`.
-/

namespace XamlAssist.Resource

open Text

/-! ### Layout -/

/-- The four bytes of a number, the lowest first. -/
def fourBytes (n : Nat) : List UInt8 :=
  [n.toUInt8, (n / 0x100).toUInt8, (n / 0x10000).toUInt8, (n / 0x1000000).toUInt8]

/-- The bytes stand for the number: seven bits of it in each, the lowest first. All bytes but the
last have the high bit set. Zeros at the end are allowed. -/
inductive IsVarint : Nat → List UInt8 → Prop
  | last {b : UInt8} (low : b < 0x80) : IsVarint b.toNat [b]
  | more {b : UInt8} (high : 0x80 ≤ b) {n : Nat} {bytes : List UInt8} (rest : IsVarint n bytes) :
      IsVarint (b.toNat - 0x80 + 0x80 * n) (b :: bytes)

/-- The bytes of an entry: the length of its path in at most five bytes, the path, and the place of
its file. -/
inductive EntryLayout : Entry → List UInt8 → Prop
  | intro {entry : Entry} {length : List UInt8}
      (isVarint : IsVarint (utf8 entry.path.toList).length length) (short : length.length ≤ 5)
      (offset_lt : entry.offset < 0x80000000) (size_lt : entry.size < 0x80000000) :
      EntryLayout entry
        (length ++ utf8 entry.path.toList ++ fourBytes entry.offset ++ fourBytes entry.size)

/-- The bytes of an index up to its last entry: the version, the number of entries and these. -/
def IsCounted (entries : List Entry) (counted : List UInt8) : Prop :=
  ∃ parts, List.Forall₂ EntryLayout entries parts ∧
    counted = fourBytes 2 ++ fourBytes entries.length ++ parts.flatten

/-- A resource with the given index and what stands behind it. -/
def withIndex (index rest : List UInt8) : List UInt8 := fourBytes index.length ++ index ++ rest

/-- The data has a binary index with the given entries. More bytes may stand behind the entries in
the index, and any bytes behind the index. -/
def IsBinary (entries : List Entry) (data : List UInt8) : Prop :=
  ∃ counted trailing rest, IsCounted entries counted ∧
    (counted ++ trailing).length < 0x80000000 ∧ data = withIndex (counted ++ trailing) rest

/-- The version number of an index stands behind its length. -/
def HasVersion (version : Nat) (data : List UInt8) : Prop :=
  (data.drop 4).take 4 = fourBytes version

/-- The bytes of a number in the shortest form. -/
def varint (n : Nat) : List UInt8 :=
  if n < 0x80 then [n.toUInt8] else (n % 0x80 + 0x80).toUInt8 :: varint (n / 0x80)

/-- The bytes of an entry with the length of its path in the shortest form. -/
def entryBytes (entry : Entry) : List UInt8 :=
  varint (utf8 entry.path.toList).length ++ utf8 entry.path.toList ++ fourBytes entry.offset ++
    fourBytes entry.size

/-- The binary index with the given entries and nothing behind them. -/
def binaryIndex (entries : List Entry) : List UInt8 :=
  fourBytes 2 ++ fourBytes entries.length ++ entries.flatMap entryBytes

/-! ### What a reader takes -/

theorem bind_eq_ok_iff {α β : Type} {x : Except IndexError α} {f : α → Except IndexError β}
    {b : β} : (x >>= f) = .ok b ↔ ∃ a, x = .ok a ∧ f a = .ok b := by
  cases x with
  | error e =>
      constructor
      · exact nofun
      · rintro ⟨a, ha, -⟩
        exact absurd ha nofun
  | ok a =>
      constructor
      · exact fun h => ⟨a, rfl, h⟩
      · rintro ⟨other, hother, h⟩
        exact Except.ok.inj hother ▸ h

namespace Cursor

/-- The given bytes stand between two cursors. -/
def Takes (cursor : Cursor) (bytes : List UInt8) (next : Cursor) : Prop :=
  cursor.size = next.size ∧ cursor.rest = bytes ++ next.rest

private theorem takes_append_iff {cursor next : Cursor} {first second : List UInt8} :
    cursor.Takes (first ++ second) next ↔
      ∃ middle, cursor.Takes first middle ∧ middle.Takes second next := by
  constructor
  · intro h
    exact ⟨⟨next.size, second ++ next.rest⟩, ⟨h.1, h.2.trans (List.append_assoc ..)⟩, rfl, rfl⟩
  · rintro ⟨middle, hfirst, hsecond⟩
    exact ⟨hfirst.1.trans hsecond.1, by rw [hfirst.2, hsecond.2, List.append_assoc]⟩

/-- A reader gives something exactly if a piece that is laid out for it stands in front, and takes
that piece. -/
def Reads {α : Type} (read : Cursor → Except IndexError (α × Cursor))
    (layout : α → List UInt8 → Prop) : Prop :=
  ∀ cursor a next, read cursor = .ok (a, next) ↔ ∃ bytes, layout a bytes ∧ cursor.Takes bytes next

/-- What is read is told by the bytes. -/
theorem Reads.unique {α : Type} {read : Cursor → Except IndexError (α × Cursor)}
    {layout : α → List UInt8 → Prop} (h : Reads read layout) {a b : α}
    {first second rest other : List UInt8} (ha : layout a first) (hb : layout b second)
    (heq : first ++ rest = second ++ other) : a = b ∧ rest = other := by
  have hfirst := (h ⟨0, first ++ rest⟩ a ⟨0, rest⟩).mpr ⟨first, ha, rfl, rfl⟩
  have hsecond := (h ⟨0, first ++ rest⟩ b ⟨0, other⟩).mpr ⟨second, hb, rfl, heq⟩
  have hsame := Except.ok.inj (hfirst.symm.trans hsecond)
  simpa using hsame

private theorem reads_take (count : Nat) :
    Reads (take · count) fun bytes piece => bytes = piece ∧ piece.length = count := by
  intro cursor bytes next
  obtain ⟨size, rest⟩ := cursor
  obtain ⟨size', rest'⟩ := next
  simp only [take, Takes]
  constructor
  · intro h
    split at h
    · next hle =>
        simp only [Except.ok.injEq, Prod.mk.injEq, mk.injEq] at h
        obtain ⟨rfl, rfl, rfl⟩ := h
        exact ⟨_, ⟨rfl, List.length_take_of_le hle⟩, rfl, (List.take_append_drop count rest).symm⟩
    · exact absurd h nofun
  · rintro ⟨_, ⟨rfl, rfl⟩, rfl, rfl⟩
    simp

end Cursor

/-! ### Numbers -/

@[simp] theorem length_fourBytes (n : Nat) : (fourBytes n).length = 4 := rfl

private theorem littleEndian_fourBytes {n : Nat} (h : n < 0x100000000) :
    Cursor.littleEndian (fourBytes n) = n := by
  simp only [fourBytes, Cursor.littleEndian, Nat.toUInt8, UInt8.toNat_ofNat']
  omega

private theorem exists_eq_fourBytes {bytes : List UInt8} (h : bytes.length = 4) :
    ∃ n < 0x100000000, bytes = fourBytes n := by
  obtain ⟨a, b, c, d, rfl⟩ := List.length_eq_four.mp h
  have ha := a.toNat_lt
  have hb := b.toNat_lt
  have hc := c.toNat_lt
  have hd := d.toNat_lt
  refine ⟨Cursor.littleEndian [a, b, c, d], ?_, ?_⟩
  · simp only [Cursor.littleEndian]
    omega
  · simp only [fourBytes, Cursor.littleEndian, List.cons.injEq, ← UInt8.toNat_inj, Nat.toUInt8,
      UInt8.toNat_ofNat', and_true]
    omega

namespace Cursor

theorem reads_integer :
    Reads readInteger fun value bytes =>
      ∃ n : Nat, n < 0x100000000 ∧ value = Int.bmod n 0x100000000 ∧ bytes = fourBytes n := by
  intro cursor value next
  rw [readInteger, bind_eq_ok_iff]
  constructor
  · rintro ⟨⟨bytes, middle⟩, hread, h⟩
    obtain ⟨_, ⟨rfl, hlength⟩, htakes⟩ := (reads_take 4 cursor bytes middle).mp hread
    obtain ⟨n, hn, rfl⟩ := exists_eq_fourBytes hlength
    obtain ⟨hvalue, rfl⟩ := Prod.mk.inj (Except.ok.inj h)
    rw [littleEndian_fourBytes hn] at hvalue
    exact ⟨_, ⟨n, hn, hvalue.symm, rfl⟩, htakes⟩
  · rintro ⟨_, ⟨n, hn, hvalue, rfl⟩, htakes⟩
    have hread := (reads_take 4 cursor _ next).mpr ⟨_, ⟨rfl, length_fourBytes n⟩, htakes⟩
    refine ⟨_, hread, ?_⟩
    simp only [littleEndian_fourBytes hn, ← hvalue]
    rfl

private theorem bmod_neg_iff {n : Nat} (h : n < 0x100000000) :
    Int.bmod n 0x100000000 < 0 ↔ 0x80000000 ≤ n := by
  rw [Int.bmod_def]
  split <;> omega

theorem bmod_of_lt {n : Nat} (h : n < 0x80000000) : Int.bmod n 0x100000000 = n := by
  rw [Int.bmod_def]
  split <;> omega

private theorem reads_length :
    Reads readLength fun n bytes => n < 0x80000000 ∧ bytes = fourBytes n := by
  intro cursor n next
  rw [readLength, bind_eq_ok_iff]
  constructor
  · rintro ⟨⟨value, middle⟩, hread, h⟩
    obtain ⟨_, ⟨m, hm, hvalue, rfl⟩, htakes⟩ := (reads_integer cursor value middle).mp hread
    by_cases hlow : m < 0x80000000
    · rw [bmod_of_lt hlow] at hvalue
      have hnonneg : ¬(m : Int) < 0 := by omega
      simp only [hvalue, if_neg hnonneg] at h
      obtain ⟨rfl, rfl⟩ := Prod.mk.inj (Except.ok.inj h)
      exact ⟨_, ⟨hlow, rfl⟩, htakes⟩
    · have hneg : value < 0 := hvalue ▸ (bmod_neg_iff hm).mpr (Nat.not_lt.mp hlow)
      simp only [if_pos hneg] at h
      exact absurd h nofun
  · rintro ⟨_, ⟨hn, rfl⟩, htakes⟩
    have hread := (reads_integer cursor n next).mpr
      ⟨_, ⟨n, by omega, (bmod_of_lt hn).symm, rfl⟩, htakes⟩
    have hnonneg : ¬(n : Int) < 0 := by omega
    refine ⟨_, hread, ?_⟩
    simp only [if_neg hnonneg]
    rfl

private theorem reads_varint (count : Nat) :
    Reads (readVarint count) fun n bytes => IsVarint n bytes ∧ bytes.length ≤ count := by
  induction count with
  | zero =>
      intro cursor n next
      rw [readVarint]
      constructor
      · exact nofun
      · rintro ⟨bytes, ⟨hvarint, hshort⟩, -⟩
        cases hvarint <;> exact absurd hshort (by simp)
  | succ count ih =>
      intro cursor n next
      obtain ⟨size, rest⟩ := cursor
      rw [readVarint]
      cases rest with
      | nil =>
          constructor
          · exact nofun
          · rintro ⟨bytes, ⟨hvarint, -⟩, -, hrest⟩
            cases hvarint <;> exact absurd hrest (by simp)
      | cons b rest =>
          by_cases hlow : b < 0x80
          · simp only [if_pos hlow]
            constructor
            · intro h
              obtain ⟨rfl, rfl⟩ := Prod.mk.inj (Except.ok.inj h)
              exact ⟨[b], ⟨.last hlow, Nat.succ_le_succ (Nat.zero_le count)⟩, rfl, rfl⟩
            · rintro ⟨bytes, ⟨hvarint, -⟩, rfl, hrest⟩
              cases hvarint with
              | last _ =>
                  obtain ⟨rfl, rfl⟩ := List.cons.inj hrest
                  rfl
              | more hhigh _ =>
                  obtain ⟨rfl, -⟩ := List.cons.inj hrest
                  exact absurd hlow (UInt8.not_lt.mpr hhigh)
          · simp only [if_neg hlow]
            rw [bind_eq_ok_iff]
            constructor
            · rintro ⟨⟨high, middle⟩, hread, h⟩
              obtain ⟨bytes, ⟨hvarint, hshort⟩, htakes⟩ := (ih _ high middle).mp hread
              obtain ⟨rfl, rfl⟩ := Prod.mk.inj (Except.ok.inj h)
              exact ⟨b :: bytes, ⟨.more (UInt8.not_lt.mp hlow) hvarint, Nat.succ_le_succ hshort⟩,
                htakes.1, congrArg (b :: ·) htakes.2⟩
            · rintro ⟨bytes, ⟨hvarint, hshort⟩, hsize, hrest⟩
              cases hvarint with
              | last hlow' =>
                  obtain ⟨rfl, -⟩ := List.cons.inj hrest
                  exact absurd hlow' hlow
              | @more _ _ high bytes hvarint =>
                  obtain ⟨rfl, htail⟩ := List.cons.inj hrest
                  have hread := (ih ⟨size, rest⟩ high next).mpr
                    ⟨bytes, ⟨hvarint, Nat.le_of_succ_le_succ hshort⟩, hsize, htail⟩
                  exact ⟨_, hread, rfl⟩

/-! ### Entries -/

private theorem reads_text :
    Reads readText fun text bytes => ∃ length,
      (IsVarint (utf8 text.toList).length length ∧ length.length ≤ 5) ∧
        bytes = length ++ utf8 text.toList := by
  intro cursor text next
  simp only [readText, bind_eq_ok_iff, Prod.exists]
  constructor
  · rintro ⟨n, middle, hlength, bytes, last, hbytes, h⟩
    obtain ⟨length, hvarint, htakes⟩ := (reads_varint 5 cursor n middle).mp hlength
    obtain ⟨_, ⟨rfl, rfl⟩, htakes'⟩ := (reads_take n middle bytes last).mp hbytes
    cases htext : String.fromUTF8? ⟨bytes.toArray⟩ with
    | none => simp [htext] at h
    | some read =>
        simp only [htext] at h
        obtain ⟨rfl, rfl⟩ := Prod.mk.inj (Except.ok.inj h)
        obtain rfl := fromUTF8?_eq_some_iff.mp htext
        exact ⟨_, ⟨length, hvarint, rfl⟩, takes_append_iff.mpr ⟨middle, htakes, htakes'⟩⟩
  · rintro ⟨_, ⟨length, hvarint, rfl⟩, htakes⟩
    obtain ⟨middle, htakes, htakes'⟩ := takes_append_iff.mp htakes
    have hlength := (reads_varint 5 cursor _ middle).mpr ⟨length, hvarint, htakes⟩
    have hbytes := (reads_take _ middle _ next).mpr ⟨_, ⟨rfl, rfl⟩, htakes'⟩
    have htext : String.fromUTF8? ⟨(utf8 text.toList).toArray⟩ = some text :=
      fromUTF8?_eq_some_iff.mpr rfl
    refine ⟨_, _, hlength, _, _, hbytes, ?_⟩
    simp only [htext]
    rfl

private theorem reads_entry : Reads readEntry EntryLayout := by
  intro cursor entry next
  simp only [readEntry, bind_eq_ok_iff, Prod.exists]
  constructor
  · rintro ⟨path, first, hpath, offset, second, hoffset, size, third, hsize, h⟩
    obtain ⟨_, ⟨length, ⟨hvarint, hshort⟩, rfl⟩, htakes⟩ := (reads_text cursor path first).mp hpath
    obtain ⟨_, ⟨hoffset, rfl⟩, htakes'⟩ := (reads_length first offset second).mp hoffset
    obtain ⟨_, ⟨hsize, rfl⟩, htakes''⟩ := (reads_length second size third).mp hsize
    obtain ⟨rfl, rfl⟩ := Prod.mk.inj (Except.ok.inj h)
    refine ⟨_, .intro hvarint hshort hoffset hsize, ?_⟩
    exact takes_append_iff.mpr ⟨second, takes_append_iff.mpr ⟨first, htakes, htakes'⟩, htakes''⟩
  · rintro ⟨_, ⟨hvarint, hshort, hoffset, hsize⟩, htakes⟩
    obtain ⟨second, htakes, htakes''⟩ := takes_append_iff.mp htakes
    obtain ⟨first, htakes, htakes'⟩ := takes_append_iff.mp htakes
    have hpath := (reads_text cursor entry.path first).mpr
      ⟨_, ⟨_, ⟨hvarint, hshort⟩, rfl⟩, htakes⟩
    have hoffset := (reads_length first _ second).mpr ⟨_, ⟨hoffset, rfl⟩, htakes'⟩
    have hsize := (reads_length second _ next).mpr ⟨_, ⟨hsize, rfl⟩, htakes''⟩
    exact ⟨_, _, hpath, _, _, hoffset, _, _, hsize, rfl⟩

private theorem readEntries_eq_ok_iff {cursor : Cursor} {done entries : List Entry} {count : Nat} :
    readEntries done count cursor = .ok entries ↔
      ∃ read parts next, entries = done.reverse ++ read ∧ read.length = count ∧
        List.Forall₂ EntryLayout read parts ∧ cursor.Takes parts.flatten next := by
  induction count generalizing cursor done with
  | zero =>
      rw [readEntries]
      constructor
      · intro h
        obtain rfl := Except.ok.inj h
        exact ⟨[], [], cursor, by simp, rfl, .nil, rfl, rfl⟩
      · rintro ⟨read, parts, next, rfl, hlength, -⟩
        obtain rfl := List.length_eq_zero_iff.mp hlength
        rw [List.append_nil]
  | succ count ih =>
      simp only [readEntries, bind_eq_ok_iff, Prod.exists]
      constructor
      · rintro ⟨entry, middle, hentry, h⟩
        obtain ⟨bytes, hlayout, htakes⟩ := (reads_entry cursor entry middle).mp hentry
        obtain ⟨read, parts, next, rfl, rfl, hparts, htakes'⟩ := ih.mp h
        refine ⟨entry :: read, bytes :: parts, next, by simp, rfl, .cons hlayout hparts, ?_⟩
        exact takes_append_iff.mpr ⟨middle, htakes, htakes'⟩
      · rintro ⟨read, parts, next, rfl, hlength, hparts, htakes⟩
        cases hparts with
        | nil => exact absurd hlength (by simp)
        | @cons entry bytes read parts hlayout hparts =>
            obtain ⟨middle, htakes, htakes'⟩ := takes_append_iff.mp htakes
            have hentry := (reads_entry cursor entry middle).mpr ⟨bytes, hlayout, htakes⟩
            refine ⟨entry, middle, hentry, ih.mpr ⟨read, parts, next, by simp, ?_, hparts, htakes'⟩⟩
            exact Nat.succ.inj hlength

end Cursor

/-! ### The index -/

private theorem take_four_append (n : Nat) (rest : List UInt8) :
    (fourBytes n ++ rest).take 4 = fourBytes n :=
  List.take_left' (length_fourBytes n)

private theorem fourBytes_inj {m n : Nat} (hm : m < 0x100000000) (hn : n < 0x100000000)
    (h : fourBytes m = fourBytes n) : m = n := by
  rw [← littleEndian_fourBytes hm, h, littleEndian_fourBytes hn]

/-- An index that starts with the number two is read as far as its entries go. -/
theorem readEntries_eq_ok_iff_isCounted {index : List UInt8} {entries : List Entry} :
    readEntries index = .ok entries ∧ index.take 4 = fourBytes 2 ↔
      entries.length < 0x80000000 ∧ ∃ counted trailing, IsCounted entries counted ∧
        index = counted ++ trailing := by
  have htwo : Int.bmod (2 : Nat) 0x100000000 = 2 := Cursor.bmod_of_lt (by decide)
  simp only [readEntries, bind_eq_ok_iff, Prod.exists]
  constructor
  · rintro ⟨⟨version, cursor, hversion, h⟩, hfour⟩
    obtain ⟨_, ⟨n, hn, hvalue, rfl⟩, htakes⟩ := (Cursor.reads_integer _ version cursor).mp hversion
    have hindex : index = fourBytes n ++ cursor.rest := htakes.2
    rw [hindex, take_four_append] at hfour
    obtain rfl := fourBytes_inj hn (by decide) hfour
    rw [htwo] at hvalue
    rw [if_neg (by rw [hvalue]; decide), if_pos hvalue] at h
    simp only [bind_eq_ok_iff, Prod.exists] at h
    obtain ⟨count, middle, hcount, hentries⟩ := h
    obtain ⟨_, ⟨hcount, rfl⟩, htakes'⟩ := (Cursor.reads_length cursor count middle).mp hcount
    obtain ⟨read, parts, next, rfl, rfl, hparts, htakes''⟩ :=
      Cursor.readEntries_eq_ok_iff.mp hentries
    refine ⟨hcount, _, next.rest, ⟨parts, hparts, rfl⟩, ?_⟩
    rw [hindex, htakes'.2, htakes''.2]
    simp
  · rintro ⟨hlength, counted, trailing, ⟨parts, hparts, rfl⟩, rfl⟩
    have hversion := (Cursor.reads_integer
      (Cursor.ofBytes (fourBytes 2 ++ fourBytes entries.length ++ parts.flatten ++ trailing)) 2
      ⟨_, fourBytes entries.length ++ (parts.flatten ++ trailing)⟩).mpr
      ⟨_, ⟨2, by decide, htwo.symm, rfl⟩, rfl, by simp [Cursor.ofBytes]⟩
    refine ⟨⟨_, _, hversion, ?_⟩, by rw [List.append_assoc, List.append_assoc, take_four_append]⟩
    rw [if_neg (by decide), if_pos rfl, bind_eq_ok_iff]
    refine ⟨_, (Cursor.reads_length _ entries.length ⟨_, parts.flatten ++ trailing⟩).mpr
      ⟨_, ⟨hlength, rfl⟩, rfl, rfl⟩, ?_⟩
    exact Cursor.readEntries_eq_ok_iff.mpr
      ⟨entries, parts, ⟨_, trailing⟩, rfl, rfl, hparts, rfl, rfl⟩

/-- What is made of the entries of an index and the files behind it. -/
def Index.ofEntries (files : Cursor) (entries : List Entry) : Except IndexError Index :=
  match entries.find? (·.path = classesPath) with
  | none => .ok { entries }
  | some entry => do
      let classes ← readClasses (← contentOf files entry)
      .ok { entries, classes }

theorem Index.ofBytes_withIndex {index : List UInt8} (h : index.length < 0x80000000)
    (rest : List UInt8) :
    Index.ofBytes (withIndex index rest) =
      readEntries index >>= Index.ofEntries ⟨(withIndex index rest).length, rest⟩ := by
  have hlength : (Cursor.ofBytes (withIndex index rest)).readLength =
      .ok (index.length, ⟨(withIndex index rest).length, index ++ rest⟩) :=
    (Cursor.reads_length _ _ _).mpr ⟨_, ⟨h, rfl⟩, rfl, by simp [Cursor.ofBytes, withIndex]⟩
  have htake : Cursor.take ⟨(withIndex index rest).length, index ++ rest⟩ index.length =
      .ok (index, ⟨(withIndex index rest).length, rest⟩) :=
    (Cursor.reads_take _ _ _ _).mpr ⟨_, ⟨rfl, rfl⟩, rfl, rfl⟩
  rw [Index.ofBytes, hlength]
  change Cursor.take _ _ >>= _ = _
  rw [htake]
  rfl

private theorem Index.exists_withIndex_of_ofBytes {data : List UInt8} {read : Index}
    (h : Index.ofBytes data = .ok read) :
    ∃ index rest, index.length < 0x80000000 ∧ data = withIndex index rest := by
  simp only [Index.ofBytes, bind_eq_ok_iff, Prod.exists] at h
  obtain ⟨length, cursor, hlength, index, files, htake, -⟩ := h
  obtain ⟨_, ⟨hlength, rfl⟩, htakes⟩ := (Cursor.reads_length _ length cursor).mp hlength
  obtain ⟨_, ⟨rfl, rfl⟩, htakes'⟩ := (Cursor.reads_take length cursor index files).mp htake
  refine ⟨index, files.rest, hlength, ?_⟩
  rw [withIndex, List.append_assoc, ← htakes'.2]
  exact htakes.2

private theorem hasVersion_withIndex {version : Nat} {index : List UInt8} (h : 4 ≤ index.length)
    (rest : List UInt8) :
    HasVersion version (withIndex index rest) ↔ index.take 4 = fourBytes version := by
  rw [HasVersion, withIndex, List.append_assoc, List.drop_left' (length_fourBytes _),
    List.take_append_of_le_length h]

/-- Every entry takes some bytes, so there are fewer entries than bytes. -/
theorem IsCounted.length_le {entries : List Entry} {counted : List UInt8}
    (h : IsCounted entries counted) : 8 + entries.length ≤ counted.length := by
  obtain ⟨parts, hparts, rfl⟩ := h
  have hlength : entries.length ≤ parts.flatten.length := by
    induction hparts with
    | nil => exact Nat.le_refl 0
    | cons hlayout _ ih =>
        cases hlayout with
        | intro =>
            simp only [List.length_cons, List.flatten_cons, List.length_append, length_fourBytes]
            omega
  simp only [List.length_append, length_fourBytes]
  omega

theorem Index.ofEntries_of_forall_ne {files : Cursor} {entries : List Entry}
    (h : ∀ entry ∈ entries, entry.path ≠ classesPath) :
    Index.ofEntries files entries = .ok { entries } := by
  have hfind : entries.find? (·.path = classesPath) = none := by
    rw [List.find?_eq_none]
    exact fun entry hentry => by simpa using h entry hentry
  rw [Index.ofEntries, hfind]

theorem Index.entries_of_ofEntries {files : Cursor} {entries : List Entry} {read : Index}
    (h : Index.ofEntries files entries = .ok read) : read.entries = entries := by
  unfold Index.ofEntries at h
  split at h
  · obtain rfl := Except.ok.inj h
    rfl
  · simp only [bind_eq_ok_iff] at h
    obtain ⟨_, _, _, _, h⟩ := h
    obtain rfl := Except.ok.inj h
    rfl

private theorem four_le_length_of_readEntries {index : List UInt8} {entries : List Entry}
    (h : readEntries index = .ok entries) : 4 ≤ index.length := by
  simp only [readEntries, bind_eq_ok_iff, Prod.exists] at h
  obtain ⟨version, cursor, hversion, -⟩ := h
  obtain ⟨_, ⟨n, -, -, rfl⟩, htakes⟩ := (Cursor.reads_integer _ version cursor).mp hversion
  have hindex : index = fourBytes n ++ cursor.rest := htakes.2
  rw [hindex, List.length_append, length_fourBytes]
  omega

theorem Index.ofBytes_of_isCounted {entries : List Entry} {counted trailing : List UInt8}
    (h : IsCounted entries counted) (hlength : (counted ++ trailing).length < 0x80000000)
    (rest : List UInt8) :
    Index.ofBytes (withIndex (counted ++ trailing) rest) =
      Index.ofEntries ⟨(withIndex (counted ++ trailing) rest).length, rest⟩ entries := by
  have hcount : entries.length < 0x80000000 := by
    have hle := h.length_le
    rw [List.length_append] at hlength
    omega
  have hread := (readEntries_eq_ok_iff_isCounted.mpr ⟨hcount, counted, trailing, h, rfl⟩).1
  rw [Index.ofBytes_withIndex hlength, hread]
  rfl

private theorem Index.ofBytes_and_hasVersion_iff {entries : List Entry}
    (hpaths : ∀ entry ∈ entries, entry.path ≠ classesPath) (data : List UInt8) :
    Index.ofBytes data = .ok { entries } ∧ HasVersion 2 data ↔ IsBinary entries data := by
  constructor
  · rintro ⟨hread, hversion⟩
    obtain ⟨index, rest, hlength, rfl⟩ := Index.exists_withIndex_of_ofBytes hread
    rw [Index.ofBytes_withIndex hlength, bind_eq_ok_iff] at hread
    obtain ⟨read, hread, hentries⟩ := hread
    obtain rfl := Index.entries_of_ofEntries hentries
    rw [hasVersion_withIndex (four_le_length_of_readEntries hread)] at hversion
    obtain ⟨-, counted, trailing, hcounted, rfl⟩ :=
      readEntries_eq_ok_iff_isCounted.mp ⟨hread, hversion⟩
    exact ⟨counted, trailing, rest, hcounted, hlength, rfl⟩
  · rintro ⟨counted, trailing, rest, hcounted, hlength, rfl⟩
    have hfour : 4 ≤ (counted ++ trailing).length := by
      have hle := hcounted.length_le
      rw [List.length_append]
      omega
    rw [Index.ofBytes_of_isCounted hcounted hlength, Index.ofEntries_of_forall_ne hpaths,
      hasVersion_withIndex hfour]
    obtain ⟨parts, -, rfl⟩ := hcounted
    exact ⟨rfl, by rw [List.append_assoc, List.append_assoc, take_four_append]⟩

/-! ### The shortest form -/

private theorem isVarint_varint (n : Nat) : IsVarint n (varint n) := by
  fun_induction varint n with
  | case1 n h =>
      have hn : n.toUInt8.toNat = n := by
        rw [Nat.toUInt8, UInt8.toNat_ofNat']
        omega
      have hlow : n.toUInt8 < 0x80 := UInt8.lt_iff_toNat_lt.mpr (hn.symm ▸ h)
      have hlast := IsVarint.last hlow
      rwa [hn] at hlast
  | case2 n h ih =>
      have hb : (n % 0x80 + 0x80).toUInt8.toNat = n % 0x80 + 0x80 := by
        rw [Nat.toUInt8, UInt8.toNat_ofNat']
        omega
      have hhigh : 0x80 ≤ (n % 0x80 + 0x80).toUInt8 :=
        UInt8.le_iff_toNat_le.mpr (hb.symm ▸ Nat.le_add_left _ _)
      have hvalue : (n % 0x80 + 0x80).toUInt8.toNat - 0x80 + 0x80 * (n / 0x80) = n := by
        rw [hb]
        omega
      have hmore := IsVarint.more hhigh ih
      rwa [hvalue] at hmore

private theorem length_varint_step {bound count : Nat}
    (h : ∀ n < bound, (varint n).length ≤ count) :
    ∀ n < 0x80 * bound, (varint n).length ≤ count + 1 := by
  intro n hn
  rw [varint]
  split
  · exact Nat.succ_le_succ (Nat.zero_le count)
  · exact Nat.succ_le_succ (h (n / 0x80) (by omega))

theorem length_varint_le {n : Nat} (h : n < 0x800000000) : (varint n).length ≤ 5 := by
  have hone : ∀ n < 0x80, (varint n).length ≤ 1 := by
    intro n hn
    rw [varint, if_pos hn]
    exact Nat.le_refl 1
  have hfive := length_varint_step (length_varint_step (length_varint_step
    (length_varint_step hone)))
  exact hfive n h

private theorem entryLayout_entryBytes {entry : Entry}
    (hpath : (utf8 entry.path.toList).length < 0x80000000) (hoffset : entry.offset < 0x80000000)
    (hsize : entry.size < 0x80000000) :
    EntryLayout entry (entryBytes entry) :=
  .intro (isVarint_varint _) (length_varint_le (by omega)) hoffset hsize

theorem isCounted_binaryIndex {entries : List Entry}
    (hplaces : ∀ entry ∈ entries, entry.offset < 0x80000000 ∧ entry.size < 0x80000000)
    (hlength : (binaryIndex entries).length < 0x80000000) :
    IsCounted entries (binaryIndex entries) := by
  refine ⟨entries.map entryBytes, ?_, rfl⟩
  rw [List.forall₂_map_right_iff, List.forall₂_same]
  intro entry hentry
  refine entryLayout_entryBytes ?_ (hplaces entry hentry).1 (hplaces entry hentry).2
  have hle : (entryBytes entry).length ≤ (entries.flatMap entryBytes).length :=
    (List.sublist_flatten_of_mem (List.mem_map_of_mem hentry)).length_le
  simp only [binaryIndex, entryBytes, List.length_append] at hle hlength
  omega

/-! ### Cuts -/

private theorem rest_eq_of_forall₂_entryLayout {entries others : List Entry}
    {parts pieces : List (List UInt8)} (h : List.Forall₂ EntryLayout entries parts)
    (h' : List.Forall₂ EntryLayout others pieces)
    (hlength : entries.length = others.length) {rest other : List UInt8}
    (heq : parts.flatten ++ rest = pieces.flatten ++ other) : rest = other := by
  induction h generalizing others pieces with
  | nil =>
      obtain rfl := List.length_eq_zero_iff.mp hlength.symm
      cases h'
      exact heq
  | cons hlayout _ ih =>
      cases h' with
      | nil => exact absurd hlength (by simp)
      | cons hlayout' h' =>
          rw [List.flatten_cons, List.flatten_cons, List.append_assoc, List.append_assoc] at heq
          exact ih h' (Nat.succ.inj hlength)
            (Cursor.reads_entry.unique hlayout hlayout' heq).2

theorem exists_error_of_forall_ne {α : Type} {x : Except IndexError α} (h : ∀ a, x ≠ .ok a) :
    ∃ error, x = .error error := by
  cases x with
  | error error => exact ⟨error, rfl⟩
  | ok a => exact absurd rfl (h a)

/-- An index that ends before its last entry does is not read, even if its length says so. -/
theorem Index.exists_error_of_cut_index {entries : List Entry} {counted : List UInt8}
    (h : IsCounted entries counted) (hlength : counted.length < 0x80000000) {count : Nat}
    (hcount : count < counted.length) (rest : List UInt8) :
    ∃ error, Index.ofBytes (withIndex (counted.take count) rest) = .error error := by
  refine exists_error_of_forall_ne fun read hread => ?_
  have hcut : (counted.take count).length < 0x80000000 := by
    rw [List.length_take]
    omega
  rw [Index.ofBytes_withIndex hcut, bind_eq_ok_iff] at hread
  obtain ⟨others, hothers, -⟩ := hread
  have hfour := four_le_length_of_readEntries hothers
  rw [List.length_take] at hfour
  have hle := h.length_le
  obtain ⟨parts, hparts, hcounted⟩ := h
  have hversion : (counted.take count).take 4 = fourBytes 2 := by
    rw [List.take_take, Nat.min_eq_left (by omega), hcounted, List.append_assoc, take_four_append]
  obtain ⟨hmany, _, trailing, ⟨pieces, hpieces, rfl⟩, heq⟩ :=
    readEntries_eq_ok_iff_isCounted.mp ⟨hothers, hversion⟩
  have hall : fourBytes 2 ++ (fourBytes entries.length ++ (parts.flatten ++ [])) =
      fourBytes 2 ++ (fourBytes others.length ++
        (pieces.flatten ++ (trailing ++ counted.drop count))) := by
    calc _ = counted := by simp [hcounted]
      _ = counted.take count ++ counted.drop count := (List.take_append_drop count counted).symm
      _ = _ := by simp [heq]
  obtain ⟨hnumber, hentries⟩ := List.append_inj (List.append_inj hall rfl).2 rfl
  have hnone := rest_eq_of_forall₂_entryLayout hparts hpieces
    (fourBytes_inj (by omega) (by omega) hnumber) hentries
  have hdrop : counted.drop count = [] := (List.append_eq_nil_iff.mp hnone.symm).2
  exact absurd (List.drop_eq_nil_iff.mp hdrop) (by omega)

/-- A resource that ends inside its index is not read. -/
theorem Index.exists_error_of_cut {index : List UInt8} (hlength : index.length < 0x80000000)
    {rest : List UInt8} {count : Nat} (hcount : count < 4 + index.length) :
    ∃ error, Index.ofBytes ((withIndex index rest).take count) = .error error := by
  refine exists_error_of_forall_ne fun read hread => ?_
  obtain ⟨other, files, hother, heq⟩ := Index.exists_withIndex_of_ofBytes hread
  have hlong : 4 + other.length ≤ count := by
    have hle := congrArg List.length heq
    simp only [withIndex, List.length_take, List.length_append, length_fourBytes] at hle
    omega
  have hall : withIndex other (files ++ (withIndex index rest).drop count) =
      withIndex index rest := by
    calc withIndex other (files ++ (withIndex index rest).drop count)
        = withIndex other files ++ (withIndex index rest).drop count := by simp [withIndex]
      _ = withIndex index rest := by rw [← heq, List.take_append_drop]
  have hsame : fourBytes other.length = fourBytes index.length := by
    have hfour := congrArg (List.take 4) hall
    rwa [withIndex, withIndex, List.append_assoc, List.append_assoc, take_four_append,
      take_four_append] at hfour
  have hlengths := fourBytes_inj (by omega) (by omega) hsame
  omega

/-- A binary index is read exactly: entries that do not tell the markup files of classes are read
from the data if and only if the data has a binary index with these entries. So what was written in
the shortest form is read back, and where the data or the index is cut inside the counted entries,
nothing is read. -/
theorem Index.ofBytes_eq_ok_iff_isBinary (entries : List Entry)
    (hpaths : ∀ entry ∈ entries, entry.path ≠ classesPath) :
    (∀ data, Index.ofBytes data = .ok { entries } ∧ HasVersion 2 data ↔ IsBinary entries data) ∧
      ((∀ entry ∈ entries, entry.offset < 0x80000000 ∧ entry.size < 0x80000000) →
        (binaryIndex entries).length < 0x80000000 →
          ∀ rest, Index.ofBytes (withIndex (binaryIndex entries) rest) = .ok { entries }) ∧
      ∀ counted trailing rest, IsCounted entries counted →
        (counted ++ trailing).length < 0x80000000 →
          (∀ count < 4 + counted.length, ∃ error,
            Index.ofBytes ((withIndex (counted ++ trailing) rest).take count) = .error error) ∧
          ∀ count < counted.length, ∃ error,
            Index.ofBytes (withIndex (counted.take count) rest) = .error error := by
  refine ⟨Index.ofBytes_and_hasVersion_iff hpaths, ?_, ?_⟩
  · intro hplaces hlength rest
    have hcounted := isCounted_binaryIndex hplaces hlength
    rw [← List.append_nil (binaryIndex entries)] at hlength ⊢
    rw [Index.ofBytes_of_isCounted hcounted hlength, Index.ofEntries_of_forall_ne hpaths]
  · intro counted trailing rest hcounted hlength
    rw [List.length_append] at hlength
    constructor
    · intro count hcount
      refine Index.exists_error_of_cut ?_ ?_ <;> (rw [List.length_append]; omega)
    · intro count hcount
      exact Index.exists_error_of_cut_index hcounted (by omega) hcount rest

/-- A path with a letter of two bytes, whose length is written in two bytes although one would do,
and a byte behind the only entry. -/
theorem Index.ofBytes_eq_ok_iff_isBinary_accent :
    (∀ entry ∈ [Entry.mk "/é.png" 3 0x7FFFFFFF], entry.path ≠ classesPath) ∧
      Index.ofBytes ([26, 0, 0, 0, 2, 0, 0, 0, 1, 0, 0, 0, 0x87, 0, 0x2F, 0xC3, 0xA9, 0x2E, 0x70,
        0x6E, 0x67, 3, 0, 0, 0, 0xFF, 0xFF, 0xFF, 0x7F, 9, 5]) =
        .ok { entries := [Entry.mk "/é.png" 3 0x7FFFFFFF] } := by
  have hpaths : ∀ entry ∈ [Entry.mk "/é.png" 3 0x7FFFFFFF], entry.path ≠ classesPath := by
    simp [classesPath]
  refine ⟨hpaths, (((Index.ofBytes_eq_ok_iff_isBinary _ hpaths).1 _).mpr ?_).1⟩
  have hlength : IsVarint 7 [0x87, 0] :=
    IsVarint.more (b := 0x87) (by decide) (IsVarint.last (b := 0) (by decide))
  have hbytes : utf8 "/é.png".toList = [0x2F, 0xC3, 0xA9, 0x2E, 0x70, 0x6E, 0x67] := by decide
  have hlayout : EntryLayout ⟨"/é.png", 3, 0x7FFFFFFF⟩ ([0x87, 0] ++ utf8 "/é.png".toList ++
      fourBytes 3 ++ fourBytes 0x7FFFFFFF) :=
    .intro (by rw [hbytes]; exact hlength) (by decide) (by decide) (by decide)
  refine ⟨_, [9], [5], ⟨[_], .cons hlayout .nil, rfl⟩, ?_, ?_⟩
  · decide
  · decide

end XamlAssist.Resource
