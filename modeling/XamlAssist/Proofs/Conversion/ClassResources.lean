import XamlAssist.Proofs.Conversion.Completion
import XamlAssist.Proofs.Ordered
import XamlAssist.Proofs.Resource.BinaryIndex
import XamlAssist.Proofs.Resource.XmlRecords

/-!
# The markup files of classes

A library may embed a document that tells the markup file of each of its classes. Within a library
the last pair for a class counts, and among the libraries of a session the first that has the class.
Main statement: `resourceForClass?_convert`.
-/

namespace XamlAssist

open Resource Text Xml OrderedMap

namespace Resource

/-! ### One library -/

/-- The fields of a class, in any order. -/
def IsClassRow (pair : String × String) (row : List (String × String)) : Prop :=
  row.Perm [("Key", pair.1), ("Value", pair.2)]

/-- A document that tells the markup files of classes. -/
structure IsClassList (pairs : List (String × String)) (document : List UInt8) : Prop where
  isRecordsOf : IsRecordsOf "KeyValueOfstringstring" IsClassRow pairs document
  unpadded : ∀ pair ∈ pairs, IsUnpadded pair.1.toList ∧ IsUnpadded pair.2.toList

/-- The data has a binary index, and the first file with the path for it tells the markup files of
classes. -/
inductive HoldsClasses (pairs : List (String × String)) : List UInt8 → Prop
  | intro {before after : List Entry} {entry : Entry} {counted trailing : List UInt8}
      {ahead document behind : List UInt8}
      (isCounted : IsCounted (before ++ entry :: after) counted)
      (length_lt : (counted ++ trailing).length < 0x80000000)
      (path_eq : entry.path = classesPath) (first : ∀ other ∈ before, other.path ≠ classesPath)
      (offset_eq : entry.offset = ahead.length) (size_eq : entry.size = document.length)
      (isClassList : IsClassList pairs document) :
      HoldsClasses pairs (withIndex (counted ++ trailing) (ahead ++ document ++ behind))

private theorem areKeys_class : AreKeys "KeyValueOfstringstring" ["Key", "Value"] :=
  ⟨by decide, by decide, by decide⟩

private theorem addClass_fieldsOf {pair : String × String} {row : List (String × String)}
    (h : IsClassRow pair row) (classes : OrderedMap String String) :
    addClass classes (fieldsOf row) = classes.insert pair.1 pair.2 := by
  have hfield (key text : String) (hmem : (key, text) ∈ [("Key", pair.1), ("Value", pair.2)]) :
      field? (fieldsOf row) key = some text := areKeys_class.field?_eq h hmem
  rw [addClass, hfield "Key" pair.1 (by simp), hfield "Value" pair.2 (by simp)]

private theorem IsClassList.readClasses_eq {pairs : List (String × String)} {document : List UInt8}
    (h : IsClassList pairs document) :
    readClasses document =
      .ok (pairs.foldl (fun classes pair => classes.insert pair.1 pair.2) {}) := by
  obtain ⟨rows, hrows, hrecords⟩ := h.isRecordsOf.exists_records (by decide) (by
    intro pair hpair row hrow
    refine areKeys_class.isFieldOf hrow ?_
    simp only [List.forall_mem_cons, List.not_mem_nil, false_imp_iff, implies_true, and_true]
    exact h.unpadded pair hpair)
  have hfold (classes : OrderedMap String String) : (rows.map fieldsOf).foldl addClass classes =
      pairs.foldl (fun classes pair => classes.insert pair.1 pair.2) classes := by
    clear hrecords h
    induction hrows generalizing classes with
    | nil => rfl
    | cons hrow _ ih =>
        rw [List.map_cons, List.foldl_cons, addClass_fieldsOf hrow, ih, List.foldl_cons]
  rw [readClasses, hrecords]
  exact congrArg Except.ok (hfold {})

private theorem HoldsClasses.ofBytes_eq {pairs : List (String × String)} {data : List UInt8}
    (h : HoldsClasses pairs data) : ∃ entries, Index.ofBytes data = .ok
      { entries
        classes := pairs.foldl (fun classes pair => classes.insert pair.1 pair.2) {} } := by
  obtain @⟨before, after, entry, counted, trailing, ahead, document, behind, hcounted, hlength,
    hpath, hfirst, hoffset, hsize, hdocument⟩ := h
  refine ⟨before ++ entry :: after, ?_⟩
  have hfind : (before ++ entry :: after).find? (·.path = classesPath) = some entry := by
    rw [List.find?_append, List.find?_eq_none.mpr (by simpa using hfirst), Option.none_or,
      List.find?_cons_of_pos (by simpa using hpath)]
  have hcontent (size : Nat) :
      contentOf ⟨size, ahead ++ document ++ behind⟩ entry = .ok document := by
    rw [contentOf, hoffset, hsize, List.append_assoc, List.drop_left, List.take_left, if_pos]
    simp only [List.length_append]
    omega
  rw [Index.ofBytes_of_isCounted hcounted hlength, Index.ofEntries, hfind]
  simp only [hcontent]
  change readClasses document >>= _ = _
  rw [hdocument.readClasses_eq]
  rfl

/-! ### The usual document -/

/-- An element with the given attributes and content. -/
def element (name : String) (attributes content : List UInt8) : List UInt8 :=
  0x3C :: ascii name ++ attributes ++ [0x3E] ++ content ++ stopTag (ascii name)

/-- The namespace of the elements for lists. -/
def listNamespace : List UInt8 :=
  [0x20] ++ ascii "xmlns:a" ++ 0x3D :: 0x22 ::
    ascii "http://schemas.microsoft.com/2003/10/Serialization/Arrays" ++ 0x22 :: []

/-- The document that tells the given markup files of classes. -/
def classDocument (pairs : List (String × String)) : List UInt8 :=
  element "AvaloniaResourceXamlInfo" listNamespace <|
    element "ClassToResourcePathIndex" [] <| pairs.flatMap fun pair =>
      element "a:KeyValueOfstringstring" [] <|
        element "a:Key" [] (utf8 (escape pair.1.toList)) ++
          element "a:Value" [] (utf8 (escape pair.2.toList))

/-- A resource with that document for its only file. -/
def classResource (pairs : List (String × String)) : List UInt8 :=
  withIndex (binaryIndex [⟨classesPath, 0, (classDocument pairs).length⟩]) (classDocument pairs)

private theorem isAttributes_listNamespace : IsAttributes listNamespace :=
  .cons (by decide) (by decide) ⟨by decide, by decide⟩ (by decide) .nil

private theorem isQualified_listNamespace (base : List UInt8) :
    IsQualified base (0x61 :: 0x3A :: base) :=
  .qualified (by decide : (0x3A : UInt8) ∉ [0x61])

private theorem isClassList_classDocument {pairs : List (String × String)}
    (h : ∀ pair ∈ pairs, IsUnpadded pair.1.toList ∧ IsUnpadded pair.2.toList) :
    IsClassList pairs (classDocument pairs) := by
  refine ⟨⟨pairs.map fun pair => [("Key", pair.1), ("Value", pair.2)], ?_, ?_⟩, h⟩
  · rw [List.forall₂_map_right_iff, List.forall₂_same]
    exact fun pair _ => .refl _
  · have hkey (text : String) : IsFields [("Key", text)]
        (element "a:Key" [] (utf8 (escape text.toList))) :=
      .field (.intro ⟨by decide, by decide⟩ .nil) (isQualified_listNamespace _)
        (isEscaped_escape _)
    have hvalue (text : String) : IsFields [("Value", text)]
        (element "a:Value" [] (utf8 (escape text.toList))) :=
      .field (.intro ⟨by decide, by decide⟩ .nil) (isQualified_listNamespace _)
        (isEscaped_escape _)
    have hlist : IsRecords "KeyValueOfstringstring"
        (pairs.map fun pair => [("Key", pair.1), ("Value", pair.2)])
        (pairs.flatMap fun pair => element "a:KeyValueOfstringstring" [] <|
          element "a:Key" [] (utf8 (escape pair.1.toList)) ++
            element "a:Value" [] (utf8 (escape pair.2.toList))) := by
      clear h
      induction pairs with
      | nil => exact .blank rfl
      | cons pair pairs ih =>
          have hpair : IsRecords "KeyValueOfstringstring" [[("Key", pair.1), ("Value", pair.2)]]
              (element "a:KeyValueOfstringstring" [] <|
                element "a:Key" [] (utf8 (escape pair.1.toList)) ++
                  element "a:Value" [] (utf8 (escape pair.2.toList))) :=
            .record (.intro ⟨by decide, by decide⟩ .nil) (isQualified_listNamespace _)
              ((hkey pair.1).append (hvalue pair.2))
          exact hpair.append ih
    refine .element (.intro ⟨by decide, by decide⟩ isAttributes_listNamespace)
      (mt (localName_eq_iff (by decide)).mpr (by decide)) ?_
    exact .element (.intro ⟨by decide, by decide⟩ .nil)
      (mt (localName_eq_iff (by decide)).mpr (by decide)) hlist

private theorem holdsClasses_classResource (pairs : List (String × String))
    (h : ∀ pair ∈ pairs, IsUnpadded pair.1.toList ∧ IsUnpadded pair.2.toList)
    (hlength : (classDocument pairs).length < 0x80000000) :
    HoldsClasses pairs (classResource pairs) := by
  have hindex : (binaryIndex [⟨classesPath, 0, (classDocument pairs).length⟩]).length <
      0x80000000 := by
    have hpath : (utf8 classesPath.toList).length = 26 := by decide
    have hvarint := length_varint_le (n := 26) (by decide)
    simp only [binaryIndex, entryBytes, hpath, List.flatMap_cons, List.flatMap_nil,
      List.length_append, length_fourBytes, List.length_nil]
    omega
  have hcounted : IsCounted ([] ++ ⟨classesPath, 0, (classDocument pairs).length⟩ :: [])
      (binaryIndex [⟨classesPath, 0, (classDocument pairs).length⟩]) :=
    isCounted_binaryIndex (by simpa using hlength) hindex
  have hholds : HoldsClasses pairs
      (withIndex (binaryIndex [⟨classesPath, 0, (classDocument pairs).length⟩] ++ [])
        ([] ++ classDocument pairs ++ [])) :=
    .intro hcounted (by simpa using hindex) rfl (by simp) rfl rfl (isClassList_classDocument h)
  simpa [classResource] using hholds

end Resource

namespace Conversion

/-- The library has the resource of embedded files, but no index can be read from it: the resource
cannot be opened, or it is a folder, or what it holds is no index. -/
structure IsUnreadable (session : Session) (library : SessionLibrary) : Prop where
  exists_resource : ∃ resource ∈ library.library.resources, resource.name = resourceName
  unreadable : ∀ content index,
    library.openResource session.files resourceName = .ok (some (.bytes content)) →
      Index.ofBytes content ≠ .ok index

/-- The pairs of classes and markup files that a library tells. -/
inductive TellsClasses (session : Session) (library : SessionLibrary) :
    List (String × String) → Prop
  | classes {pairs : List (String × String)} {content : Files.Bytes}
      (opened : library.openResource session.files resourceName = .ok (some (.bytes content)))
      (holdsClasses : HoldsClasses pairs content) : TellsClasses session library pairs
  /-- No file tells the markup files of classes. -/
  | plain {entries : List Entry} {content : Files.Bytes}
      (opened : library.openResource session.files resourceName = .ok (some (.bytes content)))
      (isBinary : IsBinary entries content) (other : ∀ entry ∈ entries, entry.path ≠ classesPath) :
      TellsClasses session library []
  /-- No files are embedded. -/
  | absent (absent : ∀ resource ∈ library.library.resources, resource.name ≠ resourceName) :
      TellsClasses session library []
  | unreadable (isUnreadable : IsUnreadable session library) : TellsClasses session library []

variable {session : Session} {library : SessionLibrary}

private theorem any_resources_of_openResource {content : ResourceContent}
    (h : library.openResource session.files resourceName = .ok (some content)) :
    library.library.resources.any (·.name = resourceName) = true := by
  cases hfind : library.library.resources.find? (·.name = resourceName) with
  | none =>
      rw [SessionLibrary.openResource, hfind] at h
      exact absurd h nofun
  | some resource =>
      have hname := List.find?_some hfind
      exact List.any_eq_true.mpr ⟨resource, List.mem_of_find?_eq_some hfind, hname⟩

private theorem embedded?_of_ofBytes {content : Files.Bytes} {index : Index}
    (hopen : library.openResource session.files resourceName = .ok (some (.bytes content)))
    (hread : Index.ofBytes content = .ok index) : embedded? session library = some index := by
  rw [embedded?, if_pos (any_resources_of_openResource hopen), hopen]
  simp [hread, Except.toOption]

private theorem IsUnreadable.embedded?_eq (h : IsUnreadable session library) :
    embedded? session library = some {} := by
  have hany : library.library.resources.any (·.name = resourceName) = true := by
    obtain ⟨resource, hmem, hname⟩ := h.exists_resource
    exact List.any_eq_true.mpr ⟨resource, hmem, decide_eq_true hname⟩
  rw [embedded?, if_pos hany]
  split
  · next content hopen =>
      obtain ⟨error, herror⟩ := exists_error_of_forall_ne fun index hindex =>
        h.unreadable content index hopen hindex
      rw [herror]
      rfl
  · rfl

private theorem TellsClasses.get?_eq {pairs : List (String × String)}
    (h : TellsClasses session library pairs) (name : String) :
    ((embedded? session library).bind fun index => index.classes.get? name) =
      pairs.reverse.lookup name := by
  cases h with
  | classes hopen hholds =>
      obtain ⟨entries, hread⟩ := hholds.ofBytes_eq
      rw [embedded?_of_ofBytes hopen hread, Option.bind_some]
      rw [get?_foldl_insert]
      simp [get?]
  | plain hopen hbinary hother =>
      obtain ⟨counted, trailing, rest, hcounted, hlength, rfl⟩ := hbinary
      have hread := (Index.ofBytes_of_isCounted hcounted hlength rest).trans
        (Index.ofEntries_of_forall_ne hother)
      rw [embedded?_of_ofBytes hopen hread]
      rfl
  | absent habsent =>
      have hany : library.library.resources.any (·.name = resourceName) = false := by
        simpa using habsent
      rw [embedded?, hany]
      rfl
  | unreadable h =>
      rw [h.embedded?_eq]
      rfl

/-! ### The files of a graph -/

open TypeGraph

/-- What a graph says about embedded files. -/
def filesOf (graph : TypeGraph) : OrderedMap String Index × OrderedMap String (String × String) :=
  (graph.resources, graph.classes)

private theorem filesOf_foldl {α : Type} {step : TypeGraph → α → TypeGraph}
    (hstep : ∀ graph item, filesOf (step graph item) = filesOf graph) (items : List α)
    (graph : TypeGraph) : filesOf (items.foldl step graph) = filesOf graph := by
  induction items generalizing graph with
  | nil => rfl
  | cons item items ih => exact (ih (step graph item)).trans (hstep graph item)

private theorem filesOf_foldl_register (name : String) (id : TypeId) (spaces : List String)
    (graph : TypeGraph) :
    filesOf (spaces.foldl (fun graph space => graph.register space name id) graph) =
      filesOf graph := by
  refine filesOf_foldl (fun _ _ => ?_) spaces graph
  rfl

private theorem filesOf_ensure (builder : Builder) (type : SessionType) :
    filesOf (builder.ensure type).2.graph = filesOf builder.graph := by
  obtain ⟨id, -, heq⟩ | ⟨-, id, label, -, -, -, heq⟩ | ⟨-, -, heq⟩ := ensure_cases builder type
  · rw [heq]
  · rw [heq]
    rfl
  · rw [heq]
    rfl

private theorem Grows.filesOf_eq {scope : Scope} {builder next : Builder}
    (h : Grows scope builder next) :
    filesOf next.graph = filesOf builder.graph := by
  induction h with
  | refl => rfl
  | tail _ hlast ih =>
      rw [← ih]
      cases hlast with
      | ensure => exact filesOf_ensure _ _
      | add => rfl
      | remember => rfl

private theorem filesOf_register (scope : Scope) :
    filesOf (Conversion.register scope).2.graph = filesOf TypeGraph.seed := by
  refine List.foldlRecOn (motive := fun state : List (TypeId × SessionType) × Builder =>
    filesOf state.2.graph = filesOf TypeGraph.seed) _ _ rfl fun state hstate library _ => ?_
  refine List.foldlRecOn (motive := fun state : List (TypeId × SessionType) × Builder =>
    filesOf state.2.graph = filesOf TypeGraph.seed) _ _ hstate fun state hstate type _ => ?_
  rw [graph_registerType]
  exact (filesOf_foldl_register _ _ _ _).trans ((filesOf_ensure _ _).trans hstate)

private theorem filesOf_registerShortName (type : SessionType) (id : TypeId) (builder : Builder) :
    filesOf (registerShortName type id builder).graph = filesOf builder.graph := by
  unfold registerShortName
  split
  · rfl
  · refine List.foldlRecOn
      (motive := fun current : Builder => filesOf current.graph = filesOf builder.graph)
      _ _ rfl fun current hcurrent space _ => ?_
    unfold registerIfFree
    split
    · exact hcurrent
    · exact hcurrent

private theorem filesOf_harvest {scope : Scope} (builder : Builder) (id : TypeId)
    {type : SessionType} (htype : type ∈ scope.session.types) :
    filesOf (harvest scope builder (id, type)).graph = filesOf builder.graph := by
  obtain ⟨grown, gathered, argument, hchained, hgrown, -, -, heq⟩ :=
    harvest_shape builder id htype
  have hgrows := Grows.filesOf_eq (Requests.grows (hchained.trans hgrown))
  rw [heq, ← hgrows]
  dsimp only
  split
  · exact filesOf_registerShortName type id _
  · rfl

private theorem filesOf_harvested (settings : Settings) (session : Session) :
    filesOf (harvested settings session).graph = filesOf TypeGraph.seed := by
  have hregistered := registered_register ⟨settings, session⟩
  refine List.foldlRecOn (motive := fun builder : Builder =>
    filesOf builder.graph = filesOf TypeGraph.seed) _ _ (filesOf_register ⟨settings, session⟩) ?_
  intro builder hbuilder pair hpair
  exact (filesOf_harvest builder pair.1 (hregistered.mem_types pair hpair)).trans hbuilder

/-- The files of a graph are those that the libraries embed. -/
theorem filesOf_convert (settings : Settings) (session : Session) :
    filesOf (convert settings session) =
      filesOf (addEmbedded session (harvested settings session).graph) := by
  have hhints (entries : List (TypeId × List String)) (graph : TypeGraph) :
      filesOf (addAllHints entries graph) = filesOf graph := by
    refine filesOf_foldl (fun _ _ => ?_) entries graph
    rfl
  have halias (builder : Builder) (names : String × String) :
      filesOf (registerAlias builder names).graph = filesOf builder.graph := by
    unfold registerAlias
    split
    · rfl
    · rw [graph_foldl_register]
      exact filesOf_foldl_register _ _ _ builder.graph
  have haliases (builder : Builder) :
      filesOf (Known.bindingAliases.foldl registerAlias builder).graph = filesOf builder.graph :=
    List.foldlRecOn
      (motive := fun current : Builder => filesOf current.graph = filesOf builder.graph) _ _ rfl
      fun current hcurrent names _ => (halias current names).trans hcurrent
  rw [convert_eq_complete, complete_eq, haliases, hhints]
  exact hhints _ _

/-! ### All libraries -/

/-- What a library tells about a class: its own name and the markup file. -/
def classResource? (session : Session) (name : String) (library : SessionLibrary) :
    Option (String × String) :=
  ((embedded? session library).bind fun index => index.classes.get? name).map (library.name, ·)

private theorem get?_classes_addLibrary (session : Session) (graph : TypeGraph)
    (library : SessionLibrary) (name : String) :
    (addLibrary session graph library).classes.get? name =
      (graph.classes.get? name).or (classResource? session name library) := by
  unfold addLibrary classResource?
  cases embedded? session library with
  | none => simp
  | some index =>
      exact get?_foldl_insertIfNew index.classes.entries (library.name, ·) graph.classes name

private theorem get?_classes_foldl (session : Session) (libraries : List SessionLibrary)
    (graph : TypeGraph) (name : String) :
    (libraries.foldl (addLibrary session) graph).classes.get? name =
      (graph.classes.get? name).or (libraries.findSome? (classResource? session name)) := by
  induction libraries generalizing graph with
  | nil => simp
  | cons library libraries ih =>
      rw [List.foldl_cons, ih, get?_classes_addLibrary, Option.or_assoc, List.findSome?_cons]
      cases classResource? session name library with
      | none => rfl
      | some resource => rfl

private theorem get?_resources_addLibrary_of_ne (session : Session) (graph : TypeGraph)
    {library : SessionLibrary} {name : String} (h : name ≠ library.name) :
    (addLibrary session graph library).resources.get? name = graph.resources.get? name := by
  unfold addLibrary
  split
  · exact get?_insert_of_ne graph.resources h _
  · rfl

private theorem get?_resources_foldl_of_forall_ne (session : Session)
    {libraries : List SessionLibrary}
    {name : String} (h : ∀ library ∈ libraries, name ≠ library.name) (graph : TypeGraph) :
    (libraries.foldl (addLibrary session) graph).resources.get? name =
      graph.resources.get? name := by
  induction libraries generalizing graph with
  | nil => rfl
  | cons library libraries ih =>
      rw [List.forall_mem_cons] at h
      rw [List.foldl_cons, ih h.2, get?_resources_addLibrary_of_ne session graph h.1]

/-- Each library has the files that it embeds, if no other has its name. -/
theorem get?_resources_addEmbedded (graph : TypeGraph)
    (hnames : (session.libraries.map SessionLibrary.name).Nodup) (h : library ∈ session.libraries)
    {index : Index} (hindex : embedded? session library = some index) :
    (addEmbedded session graph).resources.get? library.name = some index := by
  obtain ⟨before, after, hlibraries⟩ := List.append_of_mem h
  rw [hlibraries, List.map_append, List.map_cons, List.nodup_append, List.nodup_cons] at hnames
  have hafter : ∀ other ∈ after, library.name ≠ other.name := fun other hother heq =>
    hnames.2.1.1 (heq ▸ List.mem_map_of_mem hother)
  rw [addEmbedded, hlibraries, List.foldl_append, List.foldl_cons,
    get?_resources_foldl_of_forall_ne session hafter, addLibrary, hindex]
  exact get?_insert_self _ _ _

private theorem TellsClasses.classResource?_eq_some_iff {pairs : List (String × String)}
    (h : TellsClasses session library pairs) {name owner path : String} :
    classResource? session name library = some (owner, path) ↔
      library.name = owner ∧ IsLastPair pairs name path := by
  rw [classResource?, h.get?_eq, Option.map_eq_some_iff]
  constructor
  · rintro ⟨found, hfound, heq⟩
    obtain ⟨rfl, rfl⟩ := Prod.mk.inj heq
    exact ⟨rfl, lookup_reverse_eq_some_iff.mp hfound⟩
  · rintro ⟨rfl, hlast⟩
    exact ⟨path, lookup_reverse_eq_some_iff.mpr hlast, rfl⟩

private theorem TellsClasses.classResource?_eq_none_iff {pairs : List (String × String)}
    (h : TellsClasses session library pairs) {name : String} :
    classResource? session name library = none ↔ ∀ pair ∈ pairs, pair.1 ≠ name := by
  rw [classResource?, h.get?_eq, Option.map_eq_none_iff, List.lookup_eq_none_iff]
  simp only [List.mem_reverse, bne_iff_ne, ne_comm]

private theorem TellsClasses.eq_nil_of_isUnreadable {pairs : List (String × String)}
    (h : TellsClasses session library pairs) (hunreadable : IsUnreadable session library) :
    pairs = [] := by
  cases h with
  | classes hopen hholds =>
      obtain ⟨entries, hread⟩ := hholds.ofBytes_eq
      exact absurd hread (hunreadable.unreadable _ _ hopen)
  | plain | absent | unreadable => rfl

/-- The markup file of a class is that of the first library in the session that tells one, and there
that of the last pair for the class. A library whose files cannot be read has an empty index and
tells nothing. -/
theorem resourceForClass?_convert (settings : Settings) {session : Session}
    {pairsOf : SessionLibrary → List (String × String)}
    (hnames : (session.libraries.map SessionLibrary.name).Nodup)
    (htells : ∀ library ∈ session.libraries, TellsClasses session library (pairsOf library)) :
    (∀ name owner path,
      (convert settings session).resourceForClass? name = some (owner, path) ↔
        ∃ before first after, session.libraries = before ++ first :: after ∧ first.name = owner ∧
          IsLastPair (pairsOf first) name path ∧
          ∀ other ∈ before, ∀ pair ∈ pairsOf other, pair.1 ≠ name) ∧
      ∀ library ∈ session.libraries, IsUnreadable session library →
        (convert settings session).resources.get? library.name = some {} ∧
        pairsOf library = [] := by
  have hfiles := filesOf_convert settings session
  constructor
  · intro name owner path
    have hstart : (harvested settings session).graph.classes = {} :=
      congrArg Prod.snd (filesOf_harvested settings session)
    have hclasses : (convert settings session).classes =
        (addEmbedded session (harvested settings session).graph).classes := congrArg Prod.snd hfiles
    rw [resourceForClass?, hclasses, addEmbedded, get?_classes_foldl, hstart]
    change session.libraries.findSome? (classResource? session name) = _ ↔ _
    rw [List.findSome?_eq_some_iff]
    refine exists_congr fun before => exists_congr fun first => exists_congr fun after => ?_
    refine and_congr_right fun hlibraries => ?_
    have hmem : ∀ other ∈ before ++ [first], other ∈ session.libraries := fun other hother => by
      rw [hlibraries, List.append_cons]
      exact List.mem_append_left _ hother
    have hfirst := htells first (hmem first (by simp))
    have hbefore (other : SessionLibrary) (hother : other ∈ before) :=
      htells other (hmem other (List.mem_append_left _ hother))
    rw [hfirst.classResource?_eq_some_iff, and_assoc]
    refine and_congr_right fun _ => and_congr_right fun _ => ?_
    exact forall₂_congr fun other hother => (hbefore other hother).classResource?_eq_none_iff
  · intro library hlibrary hunreadable
    have hresources : (convert settings session).resources =
        (addEmbedded session (harvested settings session).graph).resources :=
      congrArg Prod.fst hfiles
    refine ⟨?_, (htells library hlibrary).eq_nil_of_isUnreadable hunreadable⟩
    rw [hresources]
    exact get?_resources_addEmbedded _ hnames hlibrary hunreadable.embedded?_eq

/-- A library with nothing but a resource of embedded files. -/
def bareLibrary (name : String) (data : List UInt8) : SessionLibrary :=
  { library := { name, resources := [{ name := resourceName, data := some data }] }, types := [] }

private theorem openResource_bareLibrary (files : Files.Tree) (name : String) (data : List UInt8) :
    (bareLibrary name data).openResource files resourceName = .ok (some (.bytes data)) := by
  simp [SessionLibrary.openResource, bareLibrary]

/-- The pairs of a library that names a class twice. -/
def repeatedPairs : List (String × String) := [("A", "/x&y"), ("B", "/b"), ("A", "/z")]

/-- A class that two libraries tell, one of them twice, and a resource that ends before the length
of its index does. -/
def repeatedSession : Session :=
  { libraries := [bareLibrary "Cut" [1, 0], bareLibrary "App" (classResource repeatedPairs),
      bareLibrary "Controls" (classResource [("A", "/a"), ("C", "/c")])] }

set_option maxRecDepth 4000 in
theorem resourceForClass?_convert_repeated :
    (convert {} repeatedSession).resourceForClass? "A" = some ("App", "/z") ∧
      (convert {} repeatedSession).resourceForClass? "C" = some ("Controls", "/c") ∧
      (convert {} repeatedSession).resources.get? "Cut" = some {} := by
  have hcut : IsUnreadable repeatedSession (bareLibrary "Cut" [1, 0]) := by
    refine ⟨⟨_, List.mem_singleton_self _, rfl⟩, fun content index hopen => ?_⟩
    rw [openResource_bareLibrary] at hopen
    cases hopen
    exact nofun
  let pairsOf : SessionLibrary → List (String × String) := fun library =>
    if library.name = "App" then repeatedPairs
    else if library.name = "Controls" then [("A", "/a"), ("C", "/c")]
    else []
  have htells : ∀ library ∈ repeatedSession.libraries,
      TellsClasses repeatedSession library (pairsOf library) := by
    simp only [repeatedSession, List.forall_mem_cons, List.not_mem_nil, false_imp_iff, implies_true,
      and_true]
    refine ⟨.unreadable hcut, ?_, ?_⟩
    · exact .classes (openResource_bareLibrary _ _ _)
        (holdsClasses_classResource repeatedPairs (by decide) (by decide))
    · exact .classes (openResource_bareLibrary _ _ _)
        (holdsClasses_classResource [("A", "/a"), ("C", "/c")] (by decide) (by decide))
  obtain ⟨hiff, hempty⟩ := resourceForClass?_convert {} (by decide) htells
  refine ⟨(hiff "A" "App" "/z").mpr ?_, (hiff "C" "Controls" "/c").mpr ?_,
    (hempty _ List.mem_cons_self hcut).1⟩
  · exact ⟨[_], _, _, rfl, rfl, ⟨[("A", "/x&y"), ("B", "/b")], [], rfl, nofun⟩, by decide⟩
  · exact ⟨[_, _], _, _, rfl, rfl, ⟨[("A", "/a")], [], rfl, nofun⟩, by decide⟩

end Conversion

end XamlAssist
