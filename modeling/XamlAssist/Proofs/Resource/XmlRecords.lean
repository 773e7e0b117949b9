import Mathlib.Data.List.Forall2
import XamlAssist.Proofs.Resource.XmlContent

/-!
# Records of a document

A grammar of documents that list records: elements with a known name whose children each hold one
text. Other elements may stand around the records. Such a document gives its records, in order and
with all their texts. Main statement: `IsRecords.records_eq`.
-/

namespace XamlAssist.Resource

open Text Xml

/-! ### Names -/

/-- A name as it is or behind the name of a namespace. -/
inductive IsQualified (base : List UInt8) : List UInt8 → Prop
  | plain : IsQualified base base
  | qualified {space : List UInt8} (unqualified : 0x3A ∉ space) :
      IsQualified base (space ++ 0x3A :: base)

private theorem localName_append {space : List UInt8} (h : 0x3A ∉ space) (base : List UInt8) :
    localName (space ++ 0x3A :: base) = base := by
  have hspace : ∀ b ∈ space, decide (b ≠ 0x3A) = true := fun b hb =>
    decide_eq_true fun heq => h (heq ▸ hb)
  rw [localName, List.dropWhile_append_of_pos hspace, List.dropWhile_cons_of_neg (by decide)]

private theorem localName_eq_self {name : List UInt8} (h : 0x3A ∉ name) :
    localName name = name := by
  have hname : ∀ b ∈ name, decide (b ≠ 0x3A) = true := fun b hb =>
    decide_eq_true fun heq => h (heq ▸ hb)
  have hdrop : (name ++ []).dropWhile (fun b => decide (b ≠ 0x3A)) = [] :=
    List.dropWhile_append_of_pos hname
  rw [List.append_nil] at hdrop
  rw [localName, hdrop]

theorem localName_eq_iff {base name : List UInt8} (h : 0x3A ∉ base) :
    localName name = base ↔ IsQualified base name := by
  constructor
  · rintro rfl
    by_cases hcolon : 0x3A ∈ name
    · obtain ⟨space, rest, rfl, hspace⟩ := List.eq_append_cons_of_mem hcolon
      rw [localName_append hspace]
      exact .qualified hspace
    · rw [localName_eq_self hcolon]
      exact .plain
  · rintro (_ | hspace)
    · exact localName_eq_self h
    · exact localName_append hspace base

theorem IsQualified.length_le {base name : List UInt8} (h : IsQualified base name) :
    base.length ≤ name.length := by
  cases h with
  | plain => exact Nat.le_refl _
  | qualified =>
      rw [List.length_append, List.length_cons]
      omega

/-! ### Documents -/

/-- The children of a record: each has a key for its name and holds a text. -/
inductive IsFields : List (String × String) → List UInt8 → Prop
  | blank {gap : List UInt8} (blank : gap.all isBlankByte = true) : IsFields [] gap
  | field {key text : String} {name start : List UInt8} {escaped : List Char}
      (isStart : IsStart name start) (isQualified : IsQualified (ascii key) name)
      (isEscaped : IsEscaped text.toList escaped) :
      IsFields [(key, text)] (start ++ utf8 escaped ++ stopTag name)
  | append {row others : List (String × String)} {left right : List UInt8}
      (before : IsFields row left) (behind : IsFields others right) :
      IsFields (row ++ others) (left ++ right)

/-- A document with a list of records. -/
inductive IsRecords (record : String) : List (List (String × String)) → List UInt8 → Prop
  | blank {gap : List UInt8} (blank : gap.all isBlankByte = true) : IsRecords record [] gap
  | instruction {content : List UInt8} (unended : 0x3F ∉ content)
      (head_ne : content.head? ≠ some 0x3E) : IsRecords record [] (instruction content)
  | record {row : List (String × String)} {name start inner : List UInt8}
      (isStart : IsStart name start) (isQualified : IsQualified (ascii record) name)
      (isFields : IsFields row inner) : IsRecords record [row] (start ++ inner ++ stopTag name)
  /-- An element around records. -/
  | element {rows : List (List (String × String))} {name start inner : List UInt8}
      (isStart : IsStart name start) (other : ¬IsQualified (ascii record) name)
      (isRecords : IsRecords record rows inner) :
      IsRecords record rows (start ++ inner ++ stopTag name)
  | append {rows others : List (List (String × String))} {left right : List UInt8}
      (before : IsRecords record rows left) (behind : IsRecords record others right) :
      IsRecords record (rows ++ others) (left ++ right)

/-- The field can be read from a record: its key is no name of a record, and its text has no blanks
around it. -/
structure IsFieldOf (record : String) (field : String × String) : Prop where
  unqualified : 0x3A ∉ ascii field.1
  key_ne : ascii field.1 ≠ ascii record
  isUnpadded : IsUnpadded field.2.toList

/-- The fields of a record as they are read, the latest first. -/
def fieldsOf (row : List (String × String)) : Fields :=
  (row.map fun field => (ascii field.1, field.2)).reverse

private theorem fieldsOf_append (row others : List (String × String)) :
    fieldsOf (row ++ others) = fieldsOf others ++ fieldsOf row := by
  simp [fieldsOf]

/-! ### Reading -/

section Reading

variable {record : String}

private theorem IsFields.exists_content {row : List (String × String)} {bytes : List UInt8}
    (h : IsFields row bytes) (hrow : ∀ field ∈ row, IsFieldOf record field) :
    ∃ events, Content events bytes ∧ ∀ (done : List Fields) (fields : Fields),
      events.foldlM (RecordState.step (ascii record)) ⟨done, some fields, none⟩ =
        some ⟨done, some (fieldsOf row ++ fields), none⟩ := by
  induction h with
  | blank hblank => exact ⟨[], .blank hblank, fun _ _ => rfl⟩
  | @field key text name start escaped hstart hname hescaped =>
      have hfield := hrow (key, text) List.mem_cons_self
      have hescapedUnpadded := hescaped.isUnpadded hfield.isUnpadded
      refine ⟨_, .text hstart (hescapedUnpadded.isRun_utf8 hescaped.not_mem)
        (utf8_ne_nil hescapedUnpadded.ne_nil), fun done fields => ?_⟩
      have hlocal : localName name = ascii key := (localName_eq_iff hfield.unqualified).mpr hname
      have hne : ascii key ≠ ascii record := hfield.key_ne
      simp [RecordState.step, hlocal, hne, hescaped.textOf?_utf8, fieldsOf]
  | append _ _ ihleft ihright =>
      obtain ⟨first, hfirst, hleft⟩ := ihleft fun field hf => hrow field (List.mem_append_left _ hf)
      obtain ⟨second, hsecond, hright⟩ :=
        ihright fun field hf => hrow field (List.mem_append_right _ hf)
      refine ⟨first ++ second, hfirst.append hsecond, fun done fields => ?_⟩
      rw [List.foldlM_append, hleft]
      simp [hright, fieldsOf_append]

private theorem IsRecords.exists_content {rows : List (List (String × String))} {bytes : List UInt8}
    (h : IsRecords record rows bytes) (hrecord : 0x3A ∉ ascii record)
    (hrows : ∀ row ∈ rows, ∀ field ∈ row, IsFieldOf record field) :
    ∃ events, Content events bytes ∧ ∀ done : List Fields,
      events.foldlM (RecordState.step (ascii record)) { records := done } =
        some { records := (rows.map fieldsOf).reverse ++ done } := by
  induction h with
  | blank hblank => exact ⟨[], .blank hblank, fun _ => rfl⟩
  | instruction hend hhead => exact ⟨[], .instruction hend hhead, fun _ => rfl⟩
  | @record row name start inner hstart hname hfields =>
      obtain ⟨events, hcontent, hread⟩ := hfields.exists_content (hrows row List.mem_cons_self)
      refine ⟨_, hcontent.element hstart, fun done => ?_⟩
      have hlocal : localName name = ascii record := (localName_eq_iff hrecord).mpr hname
      simp [RecordState.step, hlocal, List.foldlM_append, hread]
  | @element rows name start inner hstart hother _ ih =>
      obtain ⟨events, hcontent, hread⟩ := ih hrows
      refine ⟨_, hcontent.element hstart, fun done => ?_⟩
      have hlocal : localName name ≠ ascii record := fun heq =>
        hother ((localName_eq_iff hrecord).mp heq)
      simp [RecordState.step, hlocal, List.foldlM_append, hread]
  | append _ _ ihleft ihright =>
      obtain ⟨first, hfirst, hleft⟩ := ihleft fun row hr => hrows row (List.mem_append_left _ hr)
      obtain ⟨second, hsecond, hright⟩ :=
        ihright fun row hr => hrows row (List.mem_append_right _ hr)
      refine ⟨first ++ second, hfirst.append hsecond, fun done => ?_⟩
      rw [List.foldlM_append, hleft]
      simp [hright]

/-- A document with a list of records gives them all, and nothing else. -/
theorem IsRecords.records_eq {rows : List (List (String × String))} {document : List UInt8}
    (h : IsRecords record rows document) (hrecord : 0x3A ∉ ascii record)
    (hrows : ∀ row ∈ rows, ∀ field ∈ row, IsFieldOf record field) :
    records document record = .ok (rows.map fieldsOf) := by
  obtain ⟨events, hcontent, hread⟩ := h.exists_content hrecord hrows
  have hstate := hread []
  simp [records, hcontent.events?_eq, hstate]

end Reading

/-! ### Rows in any order -/

/-- The keys of the fields of a record are different, and none is taken for a record. -/
structure AreKeys (record : String) (keys : List String) : Prop where
  nodup : (keys.map ascii).Nodup
  unqualified : ∀ key ∈ keys, 0x3A ∉ ascii key
  key_ne : ∀ key ∈ keys, ascii key ≠ ascii record

section AnyOrder

variable {record : String} {row fields : List (String × String)}

theorem AreKeys.isFieldOf (h : AreKeys record (fields.map Prod.fst)) (hperm : row.Perm fields)
    (htexts : ∀ field ∈ fields, IsUnpadded field.2.toList) :
    ∀ field ∈ row, IsFieldOf record field := by
  intro field hfield
  have hmem := hperm.mem_iff.mp hfield
  exact ⟨h.unqualified _ (List.mem_map_of_mem hmem), h.key_ne _ (List.mem_map_of_mem hmem),
    htexts field hmem⟩

theorem AreKeys.field?_eq (h : AreKeys record (fields.map Prod.fst)) (hperm : row.Perm fields)
    {key text : String} (hmem : (key, text) ∈ fields) : field? (fieldsOf row) key = some text := by
  have hkeys := h.nodup
  rw [List.map_map] at hkeys
  have hnodup : (row.map fun field => ascii field.1).Nodup := (hperm.map _).nodup_iff.mpr hkeys
  obtain ⟨before, behind, rfl⟩ := List.append_of_mem (hperm.mem_iff.mpr hmem)
  rw [List.map_append, List.map_cons] at hnodup
  have hkey := (List.nodup_cons.mp (List.nodup_append.mp hnodup).2.1).1
  refine List.lookup_eq_some_iff.mpr ⟨fieldsOf behind, fieldsOf before, by simp [fieldsOf], ?_⟩
  intro field hfield
  obtain ⟨other, hother, rfl⟩ := List.mem_map.mp (List.mem_reverse.mp hfield)
  exact bne_iff_ne.mpr fun heq => hkey (List.mem_map.mpr ⟨other, hother, heq.symm⟩)

end AnyOrder

/-- A document that lists one record for each value. -/
def IsRecordsOf {α : Type} (record : String) (rowOf : α → List (String × String) → Prop)
    (values : List α) (document : List UInt8) : Prop :=
  ∃ rows, List.Forall₂ rowOf values rows ∧ IsRecords record rows document

theorem IsRecordsOf.exists_records {α : Type} {record : String}
    {rowOf : α → List (String × String) → Prop} {values : List α} {document : List UInt8}
    (h : IsRecordsOf record rowOf values document) (hrecord : 0x3A ∉ ascii record)
    (hrow : ∀ value ∈ values, ∀ row, rowOf value row → ∀ field ∈ row, IsFieldOf record field) :
    ∃ rows, List.Forall₂ rowOf values rows ∧ records document record = .ok (rows.map fieldsOf) := by
  obtain ⟨rows, hrows, hdocument⟩ := h
  refine ⟨rows, hrows, hdocument.records_eq hrecord ?_⟩
  clear hdocument
  induction hrows with
  | nil => exact nofun
  | @cons value row values rows hvalue _ ih =>
      rw [List.forall_mem_cons]
      exact ⟨hrow value List.mem_cons_self row hvalue,
        ih fun other hother => hrow other (List.mem_cons_of_mem _ hother)⟩

/-! ### Size -/

/-- The bytes of the texts of a record. -/
def textBytes (row : List (String × String)) : List UInt8 :=
  row.flatMap fun field => utf8 field.2.toList

theorem Xml.IsEscaped.length_le {text escaped : List Char} (h : IsEscaped text escaped) :
    (utf8 text).length ≤ (utf8 escaped).length := by
  induction h with
  | nil => exact Nat.le_refl _
  | plain _ _ _ ih => simpa [utf8_cons] using ih
  | @named name c text escaped hnamed _ ih =>
      have hall : (namedCharacters.all fun (_, c) =>
        (String.utf8EncodeChar c).length = 1) = true := by decide
      have hone : (String.utf8EncodeChar c).length = 1 := by
        simpa using List.all_eq_true.mp hall _ hnamed
      have hamp : (String.utf8EncodeChar '&').length = 1 := by decide
      simp only [List.cons_append, utf8_cons, utf8_append, List.length_append]
      omega

private theorem IsFields.length_textBytes_le {row : List (String × String)} {bytes : List UInt8}
    (h : IsFields row bytes) : (textBytes row).length ≤ bytes.length := by
  induction h with
  | blank => exact Nat.zero_le _
  | field _ _ hescaped =>
      have hlength := hescaped.length_le
      simp only [textBytes, List.flatMap_cons, List.flatMap_nil, List.length_append,
        List.length_nil]
      omega
  | append _ _ ihleft ihright =>
      simp only [textBytes, List.flatMap_append, List.length_append] at *
      omega

/-- A document is longer than the names of its records, twice each, and all texts in them. -/
theorem IsRecords.length_le {record : String} {rows : List (List (String × String))}
    {bytes : List UInt8} (h : IsRecords record rows bytes) :
    2 * (ascii record).length * rows.length + (rows.flatMap textBytes).length ≤ bytes.length := by
  induction h with
  | blank | instruction => exact Nat.zero_le _
  | @record row name start inner hstart hname hfields =>
      have hlength := hfields.length_textBytes_le
      have hname := hname.length_le
      have hstart : name.length ≤ start.length := by
        obtain ⟨-, -⟩ := hstart
        simp only [List.length_append, List.length_cons]
        omega
      simp only [List.flatMap_cons, List.flatMap_nil, stopTag, List.length_append, List.length_cons,
        List.length_nil]
      omega
  | element _ _ _ ih =>
      simp only [List.length_append]
      omega
  | append _ _ ihleft ihright =>
      simp only [List.flatMap_append, List.length_append, Nat.mul_add]
      omega

end XamlAssist.Resource
