import XamlAssist.Proofs.GenericName
import XamlAssist.Proofs.Resource.BinaryIndex
import XamlAssist.Proofs.Resource.XmlRecords
import XamlAssist.Proofs.Text.Decimal

/-!
# The two forms of an index

An index in XML form that lists some entries is read as these entries, and so is the binary index
with them. What is read from the files behind the index depends on the entries only. Main statement:
`Index.ofBytes_xmlIndex_eq_ok_iff`.
-/

namespace XamlAssist.Resource

open Text Xml

/-! ### The XML form -/

/-- The text is the decimal form of the number, which may stand behind zeros. -/
def IsNumeral (n : Nat) (text : String) : Prop :=
  ∃ zeros, text.toList = List.replicate zeros '0' ++ decimal n

/-- The fields of an entry, in any order. -/
def IsEntryRow (entry : Entry) (row : List (String × String)) : Prop :=
  ∃ offset size, IsNumeral entry.offset offset ∧ IsNumeral entry.size size ∧
    row.Perm [("Path", entry.path), ("Offset", offset), ("Size", size)]

/-- An index in XML form: the version and a document that lists the entries. -/
inductive IsXmlIndex (entries : List Entry) : List UInt8 → Prop
  | intro {document : List UInt8}
      (isRecordsOf : IsRecordsOf "AvaloniaResourcesIndexEntry" IsEntryRow entries document) :
      IsXmlIndex entries (fourBytes 1 ++ document)

/-! ### Numbers -/

private theorem ofDecimal_replicate_append (zeros : Nat) (digits : List Char) :
    ofDecimal (List.replicate zeros '0' ++ digits) = ofDecimal digits := by
  induction zeros with
  | zero => rfl
  | succ zeros ih => exact ih

private theorem ne_of_isDigit {c : Char} (h : c.isDigit = true) :
    isBlank c = false ∧ isMarkupBlank c = false ∧ c ≠ '-' ∧ c ≠ '+' := by
  have hrange := h
  simp only [Char.isDigit, Bool.and_eq_true, decide_eq_true_eq] at hrange
  have hlow : 48 ≤ c.toNat := hrange.1
  have hhigh : c.toNat ≤ 57 := hrange.2
  refine ⟨?_, ?_, ?_, ?_⟩
  · simp [isBlank]
    omega
  · rw [Bool.eq_false_iff]
    intro hblank
    simp only [isMarkupBlank, Bool.or_eq_true, beq_iff_eq] at hblank
    obtain ((rfl | rfl) | rfl) | rfl := hblank <;> exact absurd h (by decide)
  · rintro rfl
    exact absurd h (by decide)
  · rintro rfl
    exact absurd h (by decide)

namespace IsNumeral

variable {n : Nat} {text : String}

theorem ne_nil (h : IsNumeral n text) : text.toList ≠ [] := by
  obtain ⟨zeros, htext⟩ := h
  rw [htext]
  exact List.append_ne_nil_of_right_ne_nil _ (decimal_ne_nil n)

private theorem isDigit_of_mem (h : IsNumeral n text) {c : Char} (hc : c ∈ text.toList) :
    c.isDigit = true := by
  obtain ⟨zeros, htext⟩ := h
  rw [htext, List.mem_append] at hc
  obtain hc | hc := hc
  · obtain rfl := List.eq_of_mem_replicate hc
    decide
  · exact List.all_eq_true.mp (all_isDigit_decimal n) c hc

theorem isUnpadded (h : IsNumeral n text) : IsUnpadded text.toList where
  ne_nil := h.ne_nil
  head _ hc := (ne_of_isDigit (h.isDigit_of_mem (List.mem_of_head? hc))).2.1
  last _ hc := (ne_of_isDigit (h.isDigit_of_mem (List.mem_of_getLast? hc))).2.1

private theorem integer?_eq (h : IsNumeral n text) (hn : n < 0x80000000) :
    integer? text.toList = some n := by
  have hhead : text.toList.head? ≠ some '-' ∧ text.toList.head? ≠ some '+' :=
    ⟨fun heq => (ne_of_isDigit (h.isDigit_of_mem (List.mem_of_head? heq))).2.2.1 rfl,
      fun heq => (ne_of_isDigit (h.isDigit_of_mem (List.mem_of_head? heq))).2.2.2 rfl⟩
  have hdigits : text.toList.all Char.isDigit = true :=
    List.all_eq_true.mpr fun c hc => h.isDigit_of_mem hc
  have hvalue : ofDecimal text.toList = n := by
    obtain ⟨zeros, htext⟩ := h
    rw [htext, ofDecimal_replicate_append, ofDecimal_decimal]
  have hne := h.ne_nil
  simp [integer?, hhead, hdigits, hvalue, hne]
  omega

private theorem numberField_eq (h : IsNumeral n text) (hn : n < 0x80000000) :
    numberField (some text) = .ok n := by
  have htrim : trim text.toList = text.toList := trim_eq_self
    (fun c hc => (ne_of_isDigit (h.isDigit_of_mem (List.mem_of_head? hc))).1)
    (fun c hc => (ne_of_isDigit (h.isDigit_of_mem (List.mem_of_getLast? hc))).1)
  simp [numberField, htrim, h.integer?_eq hn]
  omega

end IsNumeral

/-! ### Entries -/

private theorem areKeys_entry : AreKeys "AvaloniaResourcesIndexEntry" ["Path", "Offset", "Size"] :=
  ⟨by decide, by decide, by decide⟩

theorem IsEntryRow.isFieldOf {entry : Entry} {row : List (String × String)}
    (h : IsEntryRow entry row) (hpath : IsUnpadded entry.path.toList) :
    ∀ field ∈ row, IsFieldOf "AvaloniaResourcesIndexEntry" field := by
  obtain ⟨offset, size, hoffset, hsize, hperm⟩ := h
  refine areKeys_entry.isFieldOf hperm ?_
  simp only [List.forall_mem_cons, List.not_mem_nil, false_imp_iff, implies_true, and_true]
  exact ⟨hpath, hoffset.isUnpadded, hsize.isUnpadded⟩

private theorem IsEntryRow.entryOfFields_eq {entry : Entry} {row : List (String × String)}
    (h : IsEntryRow entry row) (hoffset : entry.offset < 0x80000000)
    (hsize : entry.size < 0x80000000) : entryOfFields (fieldsOf row) = .ok (some entry) := by
  obtain ⟨offset, size, hoffsetText, hsizeText, hperm⟩ := h
  have hfield (key text : String) (hmem : (key, text) ∈
      [("Path", entry.path), ("Offset", offset), ("Size", size)]) :
      field? (fieldsOf row) key = some text := areKeys_entry.field?_eq hperm hmem
  rw [entryOfFields, hfield "Path" entry.path (by simp), hfield "Offset" offset (by simp),
    hfield "Size" size (by simp)]
  simp only [hoffsetText.numberField_eq hoffset, hsizeText.numberField_eq hsize]
  rfl

/-- An index in XML form is read as the entries that it lists. -/
theorem IsXmlIndex.readEntries_eq {entries : List Entry} {index : List UInt8}
    (h : IsXmlIndex entries index) (hpaths : ∀ entry ∈ entries, IsUnpadded entry.path.toList)
    (hplaces : ∀ entry ∈ entries, entry.offset < 0x80000000 ∧ entry.size < 0x80000000) :
    readEntries index = .ok entries := by
  obtain @⟨document, hdocument⟩ := h
  obtain ⟨rows, hrows, hrecords⟩ := hdocument.exists_records (by decide)
    fun entry hentry row hrow => hrow.isFieldOf (hpaths entry hentry)
  have hentries : (rows.map fieldsOf).mapM entryOfFields = .ok (entries.map some) := by
    clear hrecords hdocument hpaths
    induction hrows with
    | nil => rfl
    | @cons entry row entries rows hrow _ ih =>
        obtain ⟨hoffset, hsize⟩ := hplaces entry List.mem_cons_self
        rw [List.map_cons, List.mapM_cons, hrow.entryOfFields_eq hoffset hsize,
          ih fun other hother => hplaces other (List.mem_cons_of_mem _ hother)]
        rfl
  have hxml : readXmlEntries document = .ok entries := by
    rw [readXmlEntries, hrecords]
    change (rows.map fieldsOf).mapM entryOfFields >>= _ = _
    rw [hentries]
    change Except.ok ((entries.map some).filterMap id) = _
    rw [List.filterMap_map]
    simp
  have hone : Int.bmod (1 : Nat) 0x100000000 = 1 := Cursor.bmod_of_lt (by decide)
  have hversion := (Cursor.reads_integer (Cursor.ofBytes (fourBytes 1 ++ document)) 1
    ⟨_, document⟩).mpr ⟨_, ⟨1, by decide, hone.symm, rfl⟩, rfl, rfl⟩
  rw [readEntries, hversion]
  exact hxml

/-! ### Size -/

private theorem IsEntryRow.length_path_le {entry : Entry} {row : List (String × String)}
    (h : IsEntryRow entry row) : (utf8 entry.path.toList).length ≤ (textBytes row).length := by
  obtain ⟨offset, size, -, -, hperm⟩ := h
  rw [textBytes, (hperm.flatMap_right _).length_eq, List.flatMap_cons, List.length_append]
  exact Nat.le_add_right _ _

private theorem length_flatMap_entryBytes_le {entries : List Entry}
    {rows : List (List (String × String))} (h : List.Forall₂ IsEntryRow entries rows)
    (hlength : (rows.flatMap textBytes).length < 0x80000000) :
    (entries.flatMap entryBytes).length ≤ 13 * rows.length + (rows.flatMap textBytes).length := by
  induction h with
  | nil => exact Nat.le_refl 0
  | @cons entry row entries rows hrow _ ih =>
      rw [List.flatMap_cons, List.length_append] at hlength
      have hpath := hrow.length_path_le
      have hvarint := length_varint_le (n := (utf8 entry.path.toList).length) (by omega)
      have hrest := ih (by omega)
      simp only [List.flatMap_cons, List.length_append, List.length_cons, entryBytes,
        length_fourBytes]
      omega

/-- A binary index with entries is shorter than one in XML form. -/
theorem IsXmlIndex.length_binaryIndex_lt {entries : List Entry} {index : List UInt8}
    (h : IsXmlIndex entries index) (hlength : index.length < 0x80000000) :
    (binaryIndex entries).length < 0x80000000 := by
  obtain ⟨rows, hrows, hdocument⟩ := h
  have hname : 2 * (ascii "AvaloniaResourcesIndexEntry").length = 54 := by decide
  have hle := hdocument.length_le
  rw [hname] at hle
  rw [List.length_append, length_fourBytes] at hlength
  have hentries := length_flatMap_entryBytes_le hrows (by omega)
  simp only [binaryIndex, List.length_append, length_fourBytes]
  cases hrows with
  | nil =>
      rw [List.flatMap_nil, List.length_nil]
      decide
  | cons =>
      rw [List.length_cons] at hentries hle
      omega

/-! ### Agreement -/

/-- What is read from the files does not depend on what stands before them. -/
theorem Index.ofEntries_eq_ok_iff {size other : Nat} {files : List UInt8} {entries : List Entry}
    {read : Index} :
    Index.ofEntries ⟨size, files⟩ entries = .ok read ↔
      Index.ofEntries ⟨other, files⟩ entries = .ok read := by
  have hcontent (entry : Entry) (bytes : List UInt8) :
      contentOf ⟨size, files⟩ entry = .ok bytes ↔ contentOf ⟨other, files⟩ entry = .ok bytes := by
    simp only [contentOf]
    split
    · exact Iff.rfl
    · exact ⟨nofun, nofun⟩
  unfold Index.ofEntries
  split
  · exact Iff.rfl
  · simp only [bind_eq_ok_iff, hcontent]

/-- An index in XML form and the binary index with the same entries agree, whatever files stand
behind them: the one resource is read if and only if the other is, as the same index, which has the
given entries. Both are read if no file tells the markup files of classes. -/
theorem Index.ofBytes_xmlIndex_eq_ok_iff {entries : List Entry} {index : List UInt8}
    (hindex : IsXmlIndex entries index) (hlength : index.length < 0x80000000)
    (hpaths : ∀ entry ∈ entries, IsUnpadded entry.path.toList)
    (hplaces : ∀ entry ∈ entries, entry.offset < 0x80000000 ∧ entry.size < 0x80000000)
    (files : List UInt8) :
    (∀ read, Index.ofBytes (withIndex index files) = .ok read ↔
        Index.ofBytes (withIndex (binaryIndex entries) files) = .ok read) ∧
      (∀ read, Index.ofBytes (withIndex index files) = .ok read → read.entries = entries) ∧
      ((∀ entry ∈ entries, entry.path ≠ classesPath) →
        Index.ofBytes (withIndex index files) = .ok { entries }) := by
  have hxml : Index.ofBytes (withIndex index files) =
      Index.ofEntries ⟨(withIndex index files).length, files⟩ entries := by
    rw [Index.ofBytes_withIndex hlength, hindex.readEntries_eq hpaths hplaces]
    rfl
  have hbinaryLength := hindex.length_binaryIndex_lt hlength
  have hbinary : Index.ofBytes (withIndex (binaryIndex entries) files) =
      Index.ofEntries ⟨(withIndex (binaryIndex entries) files).length, files⟩ entries := by
    have hcounted := isCounted_binaryIndex hplaces hbinaryLength
    rw [← List.append_nil (binaryIndex entries)] at hbinaryLength ⊢
    exact Index.ofBytes_of_isCounted hcounted hbinaryLength files
  rw [hxml, hbinary]
  exact ⟨fun _ => Index.ofEntries_eq_ok_iff, fun _ => Index.entries_of_ofEntries,
    Index.ofEntries_of_forall_ne⟩

/-- An index with one entry, whose path has an ampersand and a letter of two bytes. One of its
numbers stands behind a zero, and its fields are in another order. -/
def ampersandIndex : List UInt8 :=
  fourBytes 1 ++ utf8 ("<List><AvaloniaResourcesIndexEntry>" ++
    "<Size>3</Size> <Path>/&amp;é</Path><Offset>07</Offset>" ++
    "</AvaloniaResourcesIndexEntry></List>").toList

set_option maxRecDepth 2000 in
theorem Index.ofBytes_xmlIndex_eq_ok_iff_ampersand :
    IsXmlIndex [⟨"/&é", 7, 3⟩] ampersandIndex ∧
      Index.ofBytes (withIndex ampersandIndex [9]) = .ok { entries := [⟨"/&é", 7, 3⟩] } ∧
      Index.ofBytes (withIndex (binaryIndex [⟨"/&é", 7, 3⟩]) [9]) =
        .ok { entries := [⟨"/&é", 7, 3⟩] } := by
  have hstart (name : String) (hne : ascii name ≠ [])
      (hplain : (ascii name).all isNameByte = true) :
      IsStart (ascii name) (0x3C :: ascii name ++ [] ++ [0x3E]) :=
    .intro ⟨hne, hplain⟩ .nil
  have hsize : IsFields [("Size", "3")] (0x3C :: ascii "Size" ++ [] ++ [0x3E] ++ utf8 ['3'] ++
      stopTag (ascii "Size")) :=
    .field (hstart "Size" (by decide) (by decide)) .plain (.plain (by decide) (by decide) .nil)
  have hpath : IsFields [("Path", "/&é")] (0x3C :: ascii "Path" ++ [] ++ [0x3E] ++
      utf8 ('/' :: '&' :: "amp".toList ++ ';' :: ['é']) ++ stopTag (ascii "Path")) :=
    .field (hstart "Path" (by decide) (by decide)) .plain (.plain (by decide) (by decide)
      (.named (by decide) (.plain (by decide) (by decide) .nil)))
  have hoffset : IsFields [("Offset", "07")] (0x3C :: ascii "Offset" ++ [] ++ [0x3E] ++
      utf8 ['0', '7'] ++ stopTag (ascii "Offset")) :=
    .field (hstart "Offset" (by decide) (by decide)) .plain
      (.plain (by decide) (by decide) (.plain (by decide) (by decide) .nil))
  have hgap : IsFields [] [0x20] := .blank (by decide)
  have hrecord := IsRecords.record
    (hstart "AvaloniaResourcesIndexEntry" (by decide) (by decide)) .plain
    (hsize.append (hgap.append (hpath.append hoffset)))
  have hlist := IsRecords.element (hstart "List" (by decide) (by decide))
    (mt (localName_eq_iff (by decide)).mpr (by decide)) hrecord
  have hrow : IsEntryRow ⟨"/&é", 7, 3⟩ [("Size", "3"), ("Path", "/&é"), ("Offset", "07")] :=
    ⟨"07", "3", ⟨1, by rw [decimal]; decide⟩, ⟨0, by rw [decimal]; decide⟩, by decide⟩
  have hindex : IsXmlIndex [⟨"/&é", 7, 3⟩] ampersandIndex := by
    refine Eq.mp (congrArg (IsXmlIndex _) ?_) (IsXmlIndex.intro ⟨_, .cons hrow .nil, hlist⟩)
    decide
  obtain ⟨hiff, -, hread⟩ :=
    Index.ofBytes_xmlIndex_eq_ok_iff hindex (by decide) (by decide) (by decide) [9]
  have hok := hread (by decide)
  exact ⟨hindex, hok, (hiff _).mp hok⟩

end XamlAssist.Resource
