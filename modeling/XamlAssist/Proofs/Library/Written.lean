import XamlAssist.Library.Written
import XamlAssist.Proofs.Json.Printing

/-!
# Reading a description that was written

Every kind of record is written so that it is read back: a field that is written is found under its
name, and what is written for its value gives the value. Main statement: `ofText?_toText`.
-/

namespace XamlAssist.Library

open Json

/-- What `write` makes of something is a plain value that `read` takes back. -/
structure ReadsBack {α : Type} (read : Value → Option α) (write : α → Value) : Prop where
  isPlain : ∀ a, (write a).IsPlain
  read_write : ∀ a, read (write a) = some a

/-! ### Parts of records -/

private theorem readsBack_text : ReadsBack readText? writeString where
  isPlain text := .string text.toList
  read_write text := by simp [readText?, writeString]

private theorem readsBack_bool : ReadsBack readBool? Value.bool where
  isPlain value := .bool value
  read_write _ := rfl

private theorem readsBack_byte : ReadsBack readByte? writeByte where
  isPlain _ := .number rfl
  read_write byte := by
    have hlt : byte.toNat < 256 := byte.toNat_lt
    simp [readByte?, writeByte, hlt]

private theorem mapM_eq_some {α β : Type} {f : α → Option β} {g : α → β} {items : List α}
    (h : ∀ item ∈ items, f item = some (g item)) : items.mapM f = some (items.map g) := by
  induction items with
  | nil => rfl
  | cons item items ih =>
      have hitems := ih fun other hother => h other (List.mem_cons_of_mem item hother)
      rw [List.mapM_cons, h item List.mem_cons_self, hitems]
      rfl

private theorem ReadsBack.list {α : Type} {read : Value → Option α} {write : α → Value}
    (h : ReadsBack read write) : ReadsBack (readList? read) (writeList write) where
  isPlain items := .array fun value hvalue => by
    obtain ⟨item, -, rfl⟩ := List.mem_map.mp hvalue
    exact h.isPlain item
  read_write items := by
    rw [writeList, readList?, List.mapM_map, mapM_eq_some (g := id), List.map_id]
    exact fun item _ => h.read_write item

private theorem ReadsBack.option {α : Type} {read : Value → Option α} {write : α → Value}
    (h : ReadsBack read write) (hne : ∀ a, write a ≠ .null) :
    ReadsBack (readOption? read) (writeOption write) where
  isPlain
    | none => .null
    | some a => h.isPlain a
  read_write
    | none => rfl
    | some a => by
        rw [writeOption, readOption?, h.read_write, Option.map_some]
        exact hne a

private theorem ofWord?_word (visibility : Visibility) :
    Visibility.ofWord? visibility.word = some visibility := by
  cases visibility <;> simp [Visibility.ofWord?, Visibility.all, Visibility.word]

private theorem readsBack_visibility : ReadsBack readVisibility? writeVisibility where
  isPlain visibility := readsBack_text.isPlain visibility.word
  read_write visibility := by
    have htext := readsBack_text.read_write visibility.word
    rw [writeVisibility, readVisibility?, htext]
    · exact ofWord?_word visibility
    · exact nofun

/-! ### Records -/

private theorem ReadsBack.bind_readField? {α β : Type} {read : Value → Option α} {write : α → Value}
    (h : ReadsBack read write) (missing a : α) (next : α → Option β) :
    (readField? missing read (some (write a))).bind next = next a := by
  rw [readField?, h.read_write, Option.bind_some]

private theorem isPlain_writeRecord {names : List String} {values : List Value}
    (h : ∀ value ∈ values, value.IsPlain) : (writeRecord names values).IsPlain := by
  refine .object (fun field hfield => ?_) fun field hfield => h _ (List.of_mem_zip hfield).2
  obtain ⟨name, -, hname⟩ := List.mem_map.mp (List.of_mem_zip hfield).1
  exact ⟨_, hname.symm⟩

private theorem uniqueField?_of_mem {fields : List (String × Value)}
    (hnodup : (fields.map Prod.fst).Nodup) {field : String × Value} (hfield : field ∈ fields) :
    uniqueField? field.1 fields = some (some field.2) := by
  have hfilter : fields.filter (fun other => other.1 = field.1) = [field] := by
    induction fields with
    | nil => exact absurd hfield List.not_mem_nil
    | cons first fields ih =>
        rw [List.map_cons, List.nodup_cons] at hnodup
        rcases List.mem_cons.mp hfield with rfl | hmem
        · have hothers : fields.filter (fun other => other.1 = field.1) = [] := by
            rw [List.filter_eq_nil_iff]
            intro other hother heq
            exact hnodup.1 (List.mem_map.mpr ⟨other, hother, of_decide_eq_true heq⟩)
          rw [List.filter_cons_of_pos (by simp), hothers]
        · have hne : first.1 ≠ field.1 := fun heq =>
            hnodup.1 (heq ▸ List.mem_map.mpr ⟨field, hmem, rfl⟩)
          rw [List.filter_cons_of_neg (by simpa using hne), ih hnodup.2 hmem]
  rw [uniqueField?, hfilter]

private theorem recordFields?_writeRecord {names : List String} {values : List Value}
    (hnodup : names.Nodup) (hlength : names.length = values.length) :
    recordFields? names (writeRecord names values) = some (values.map some) := by
  have hfirst : (names.zip values).map Prod.fst = names :=
    List.map_fst_zip (Nat.le_of_eq hlength)
  have hsecond : (names.zip values).map Prod.snd = values :=
    List.map_snd_zip (Nat.le_of_eq hlength.symm)
  have hfields : ((names.map fun name => writeText name.toList).zip values).mapM
      (fun field => do some (String.ofList (← textOf? field.1), field.2)) =
        some (names.zip values) := by
    rw [List.zip_map_left, List.mapM_map, mapM_eq_some (g := id), List.map_id]
    intro field _
    simp
  rw [writeRecord, recordFields?, hfields]
  calc names.mapM (fun name => uniqueField? name (names.zip values))
      = ((names.zip values).map Prod.fst).mapM
          (fun name => uniqueField? name (names.zip values)) := by rw [hfirst]
    _ = some ((names.zip values).map (some ∘ Prod.snd)) := by
        rw [List.mapM_map]
        exact mapM_eq_some fun field hfield => uniqueField?_of_mem (hfirst.symm ▸ hnodup) hfield
    _ = some (values.map some) := by rw [← List.map_map, hsecond]

private theorem readsBack_attribute : ReadsBack Attribute.read? Attribute.write where
  isPlain a := isPlain_writeRecord (by
    simp [readsBack_text.isPlain, readsBack_text.list.isPlain])
  read_write a := by
    rw [Attribute.read?, Attribute.write, recordFields?_writeRecord (by decide) rfl]
    simp [readsBack_text.bind_readField?, readsBack_text.list.bind_readField?]

private theorem readsBack_accessor :
    ReadsBack (readOption? readVisibility?) (writeOption writeVisibility) :=
  readsBack_visibility.option fun _ => nofun

private theorem readsBack_property : ReadsBack Property.read? Property.write where
  isPlain property := isPlain_writeRecord (by
    simp [readsBack_text.isPlain, readsBack_bool.isPlain, readsBack_accessor.isPlain,
      readsBack_attribute.list.isPlain])
  read_write property := by
    rw [Property.read?, Property.write, recordFields?_writeRecord (by decide) rfl]
    simp [readsBack_text.bind_readField?, readsBack_bool.bind_readField?,
      readsBack_accessor.bind_readField?, readsBack_attribute.list.bind_readField?]

private theorem readsBack_field : ReadsBack Field.read? Field.write where
  isPlain field := isPlain_writeRecord (by
    simp [readsBack_text.isPlain, readsBack_bool.isPlain, readsBack_visibility.isPlain])
  read_write field := by
    rw [Field.read?, Field.write, recordFields?_writeRecord (by decide) rfl]
    simp [readsBack_text.bind_readField?, readsBack_bool.bind_readField?,
      readsBack_visibility.bind_readField?]

private theorem readsBack_parameter : ReadsBack Parameter.read? Parameter.write where
  isPlain parameter := isPlain_writeRecord (by simp [readsBack_text.isPlain])
  read_write parameter := by
    rw [Parameter.read?, Parameter.write, recordFields?_writeRecord (by decide) rfl]
    simp [readsBack_text.bind_readField?]

private theorem readsBack_optionalText :
    ReadsBack (readOption? readText?) (writeOption writeString) :=
  readsBack_text.option fun _ => nofun

private theorem readsBack_method : ReadsBack Method.read? Method.write where
  isPlain method := isPlain_writeRecord (by
    simp [readsBack_text.isPlain, readsBack_bool.isPlain, readsBack_visibility.isPlain,
      readsBack_optionalText.isPlain, readsBack_parameter.list.isPlain])
  read_write method := by
    rw [Method.read?, Method.write, recordFields?_writeRecord (by decide) rfl]
    simp [readsBack_text.bind_readField?, readsBack_bool.bind_readField?,
      readsBack_visibility.bind_readField?, readsBack_optionalText.bind_readField?,
      readsBack_parameter.list.bind_readField?]

private theorem readsBack_event : ReadsBack Event.read? Event.write where
  isPlain event := isPlain_writeRecord (by
    simp [readsBack_text.isPlain, readsBack_bool.isPlain, readsBack_visibility.isPlain])
  read_write event := by
    rw [Event.read?, Event.write, recordFields?_writeRecord (by decide) rfl]
    simp [readsBack_text.bind_readField?, readsBack_bool.bind_readField?,
      readsBack_visibility.bind_readField?]

private theorem readsBack_content :
    ReadsBack (readOption? (readList? readByte?)) (writeOption (writeList writeByte)) :=
  readsBack_byte.list.option fun _ => nofun

private theorem writeOption_path (file : Option Files.Path) :
    writeOption (fun path : Files.Path => writeString path.text) file =
      writeOption writeString (file.map Files.Path.text) := by
  cases file with
  | none => rfl
  | some path => rfl

private theorem readsBack_resource : ReadsBack Resource.read? Resource.write where
  isPlain resource := isPlain_writeRecord (by
    simp [readsBack_text.isPlain, readsBack_content.isPlain, writeOption_path,
      readsBack_optionalText.isPlain])
  read_write resource := by
    have hpath : Files.Path.mk ∘ Files.Path.text = id := rfl
    rw [Resource.read?, Resource.write, recordFields?_writeRecord (by decide) rfl]
    simp [readField?, readsBack_text.read_write, readsBack_content.read_write, writeOption_path,
      readsBack_optionalText.read_write, hpath]

private theorem isPlain_type (type : TypeDecl) : type.write.IsPlain :=
  isPlain_writeRecord (by
    simp [readsBack_text.isPlain, readsBack_bool.isPlain, readsBack_visibility.isPlain,
      readsBack_optionalText.isPlain, readsBack_text.list.isPlain,
      readsBack_attribute.list.isPlain, readsBack_property.list.isPlain,
      readsBack_field.list.isPlain, readsBack_method.list.isPlain, readsBack_event.list.isPlain])

/-- What a session notes with a type is not part of the written form. -/
theorem read?_write_type (type : TypeDecl) :
    TypeDecl.read? type.write = some { type with membership := {} } := by
  rw [TypeDecl.read?, TypeDecl.write, recordFields?_writeRecord (by decide) rfl]
  change (readField? "" readText? (some (writeString type.namespaceName)) >>= _) = _
  simp only [Option.bind_eq_bind, readsBack_text.bind_readField?, readsBack_bool.bind_readField?,
    readsBack_visibility.bind_readField?, readsBack_optionalText.bind_readField?,
    readsBack_text.list.bind_readField?, readsBack_attribute.list.bind_readField?,
    readsBack_property.list.bind_readField?, readsBack_field.list.bind_readField?,
    readsBack_method.list.bind_readField?, readsBack_event.list.bind_readField?]

private theorem bind_readField?_types {β : Type} (types : List TypeDecl)
    (next : List TypeDecl → Option β) :
    (readField? [] (readList? TypeDecl.read?) (some (writeList TypeDecl.write types))).bind next =
      next (types.map ({ · with membership := {} })) := by
  have htypes : (types.map TypeDecl.write).mapM TypeDecl.read? =
      some (types.map ({ · with membership := {} })) := by
    rw [List.mapM_map]
    exact mapM_eq_some fun type _ => read?_write_type type
  rw [readField?, writeList, readList?, htypes, Option.bind_some]

private theorem isPlain_write (library : Library) : library.write.IsPlain := by
  have htypes : (writeList TypeDecl.write library.types).IsPlain := .array fun value hvalue => by
    obtain ⟨type, -, rfl⟩ := List.mem_map.mp hvalue
    exact isPlain_type type
  exact isPlain_writeRecord (by
    simp [readsBack_text.isPlain, readsBack_attribute.list.isPlain,
      readsBack_resource.list.isPlain, htypes])

/-- The folder is not part of the written form. -/
theorem read?_write (library : Library) :
    read? library.write =
      some { library with
        types := library.types.map ({ · with membership := {} })
        folder := none } := by
  rw [read?, write, recordFields?_writeRecord (by decide) rfl]
  simp [readsBack_text.bind_readField?, readsBack_attribute.list.bind_readField?,
    readsBack_resource.list.bind_readField?, bind_readField?_types]

/-- A description that is written and read again is the same in all that is written. Its folder is
the one that it is read for, and no session has noted anything with its types: their full names,
their libraries and their handles are those that a type has by default. -/
theorem ofText?_toText (library : Library) (folder : Option Files.Path) :
    ofText? library.toText folder =
      some { library with
        types := library.types.map ({ · with membership := {} })
        folder } := by
  rw [ofText?, toText, String.toList_ofList, Value.ofText?_printed (isPlain_write library)]
  simp [read?_write]

end XamlAssist.Library
