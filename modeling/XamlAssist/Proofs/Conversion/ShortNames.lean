import XamlAssist.Proofs.Conversion.Names
import XamlAssist.Proofs.GenericSpelling

/-!
# Short names of types

A type that stands for an instance is called after its generic type and its arguments. An argument
that is not listed is cut behind its last dot, and the cut may go through its brackets. Main
statement: `balanced_name_iff`, this is the only way in which a short name comes to have brackets
that do not match.
-/

namespace XamlAssist.Conversion

open TypeGraph Text

/-- The short names that belong to a full name. An argument of an instance is shown by a short name
of its own if it is listed. Otherwise it is cut, which `mayCut` restricts. -/
inductive ShortName (session : Session) (mayCut : String → Prop) : String → String → Prop
  | seeded {node : Node} : node ∈ TypeGraph.seed.types →
      ShortName session mayCut node.fullName node.name
  | declared {type : SessionType} : type ∈ session.types →
      ShortName session mayCut type.fullName type.decl.name
  | instantiated {fullName : String} {generic : GenericName} (shown : String → String)
      (isListed : String → Bool) : GenericName.ofString? fullName = some generic →
      Builder.isSynthesized generic.definition = true →
      (∀ argument ∈ generic.arguments, isListed argument = true →
        ShortName session mayCut argument (shown argument)) →
      (∀ argument ∈ generic.arguments, isListed argument = false →
        mayCut argument ∧ shown argument = Seed.simpleName argument) →
      ShortName session mayCut fullName
        (GenericName.displayName (Seed.simpleName generic.definition)
          (generic.arguments.map shown))

/-- The text up to the last `separator`, which is the part that a cut takes off. -/
def throughLast (separator : Char) (text : List Char) : List Char :=
  (text.reverse.dropWhile (· ≠ separator)).reverse

/-- The last dot of a reference is outside its brackets. -/
def DotOutside (reference : String) : Prop := Balanced (throughLast '.' reference.toList)

/-! ### Brackets -/

private theorem throughLast_append_behindLast (separator : Char) (text : List Char) :
    throughLast separator text ++ behindLast separator text = text := by
  rw [throughLast, behindLast, ← List.reverse_append, List.takeWhile_append_dropWhile,
    List.reverse_reverse]

/-- Of a cut reference no bracket stays open, and there are none too many unless the cut goes
through brackets. -/
theorem closes_simpleName {reference : String} (h : Balanced reference.toList) :
    (∃ depth, Closes depth (Seed.simpleName reference).toList) ∧
      (Balanced (Seed.simpleName reference).toList ↔ DotOutside reference) := by
  rw [← throughLast_append_behindLast '.' reference.toList] at h
  rw [Seed.simpleName, String.toList_ofList]
  exact ⟨(closes_zero_iff.mpr h).of_append, h.left_iff_right.symm⟩

private theorem plain_of_all {text : List Char} (h : text.all fun c => c ≠ '<' && c ≠ '>') :
    '<' ∉ text ∧ '>' ∉ text := by
  rw [List.all_eq_true] at h
  exact ⟨fun hmem => absurd (h '<' hmem) (by decide), fun hmem => absurd (h '>' hmem) (by decide)⟩

private theorem plain_simpleName_of_isSynthesized {definition : String}
    (h : Builder.isSynthesized definition = true) :
    '<' ∉ (Seed.simpleName definition).toList ∧ '>' ∉ (Seed.simpleName definition).toList := by
  have hall : (GenericName.nullableDefinition :: GenericName.collectionDefinitions).all
      fun definition => definition.toList.all fun c => c ≠ '<' && c ≠ '>' := by decide +kernel
  have hmem : definition ∈ GenericName.nullableDefinition :: GenericName.collectionDefinitions := by
    simpa [Builder.isSynthesized, GenericName.isCollection] using h
  obtain ⟨hopen, hclose⟩ := plain_of_all (List.all_eq_true.mp hall definition hmem)
  rw [← throughLast_append_behindLast '.' definition.toList, List.mem_append, not_or]
    at hopen hclose
  rw [Seed.simpleName, String.toList_ofList]
  exact ⟨hopen.2, hclose.2⟩

private theorem toList_displayName (simpleName : String) (arguments : List String) :
    (GenericName.displayName simpleName arguments).toList =
      before GenericName.arityMark simpleName.toList ++
        '<' :: ([',', ' '].intercalate (arguments.map String.toList) ++ ['>']) := by
  simp [GenericName.displayName, String.toList_intercalate]

private theorem closes_displayName {definition : String} {arguments : List String}
    (hdefinition : Builder.isSynthesized definition = true)
    (h : ∀ text ∈ arguments, ∃ depth, Closes depth text.toList) :
    (∃ depth, Closes depth
        (GenericName.displayName (Seed.simpleName definition) arguments).toList) ∧
      (Balanced (GenericName.displayName (Seed.simpleName definition) arguments).toList ↔
        ∀ text ∈ arguments, Balanced text.toList) := by
  obtain ⟨hopen, hclose⟩ := plain_simpleName_of_isSynthesized hdefinition
  have hseparator : Closes 0 [',', ' '] := closes_of_plain (by decide) (by decide)
  obtain ⟨depth, hinner, hzero⟩ := exists_closes_intercalate hseparator
    (arguments.map String.toList) (by simpa using h)
  have hhead : Closes 0 (before GenericName.arityMark (Seed.simpleName definition).toList) :=
    closes_of_plain (fun hmem => hopen ((List.takeWhile_sublist _).mem hmem))
      fun hmem => hclose ((List.takeWhile_sublist _).mem hmem)
  have hlast : Closes 1 ['>'] := closes_close_iff.mpr (closes_nil_iff.mpr rfl)
  have hname := hhead.append (closes_open_iff.mpr (hinner.append hlast))
  rw [Nat.zero_add, ← toList_displayName] at hname
  refine ⟨⟨depth, hname⟩, ?_⟩
  rw [hname.balanced_iff, hzero]
  simp

private theorem dotOutside_of_plain {reference : String} (h : Balanced reference.toList)
    (hopen : '<' ∉ reference.toList) : DotOutside reference := by
  have hclose : '>' ∉ reference.toList := by
    rw [← List.count_eq_zero, ← h.count_eq, List.count_eq_zero]
    exact hopen
  rw [← throughLast_append_behindLast '.' reference.toList, List.mem_append, not_or]
    at hopen hclose
  exact balanced_of_plain hopen.1 hclose.1

private theorem open_mem_of_ofString? {name : String} {generic : GenericName}
    (h : GenericName.ofString? name = some generic) : '<' ∈ name.toList := by
  obtain ⟨spelling, hchars, -⟩ := GenericName.parse?_eq_some_iff.mp h
  rw [← hchars, GenericName.Spelling.chars]
  simp

private theorem plain_seed : ∀ node ∈ TypeGraph.seed.types, '<' ∉ node.name.toList ∧
    '>' ∉ node.name.toList := by
  have hall : TypeGraph.seed.types.all fun node =>
      node.name.toList.all fun c => c ≠ '<' && c ≠ '>' := by decide +kernel
  intro node hnode
  exact plain_of_all (List.all_eq_true.mp hall node hnode)

section Plain

variable {session : Session} {mayCut : String → Prop} {fullName name : String}
  (hplain : ∀ type ∈ session.types, '<' ∉ type.decl.name.toList ∧ '>' ∉ type.decl.name.toList)

include hplain

/-- No bracket of a short name stays open. If none closes too much either, then no cut went through
brackets. -/
theorem ShortName.exists_closes (h : ShortName session mayCut fullName name) :
    (∃ depth, Closes depth name.toList) ∧
      (Balanced name.toList → ShortName session DotOutside fullName name) := by
  induction h with
  | seeded hnode =>
      obtain ⟨hopen, hclose⟩ := plain_seed _ hnode
      exact ⟨⟨0, closes_of_plain hopen hclose⟩, fun _ => .seeded hnode⟩
  | declared htype =>
      obtain ⟨hopen, hclose⟩ := hplain _ htype
      exact ⟨⟨0, closes_of_plain hopen hclose⟩, fun _ => .declared htype⟩
  | @instantiated fullName generic shown isListed hname hdefinition _ hcut ih =>
      have hcutOff (argument : String) (hargument : argument ∈ generic.arguments) :=
        closes_simpleName (GenericName.balanced_of_mem_arguments hname hargument)
      have hshown : ∀ text ∈ generic.arguments.map shown, ∃ depth, Closes depth text.toList := by
        rw [List.forall_mem_map]
        intro argument hargument
        cases hlisted : isListed argument with
        | true => exact (ih argument hargument hlisted).1
        | false =>
            rw [(hcut argument hargument hlisted).2]
            exact (hcutOff argument hargument).1
      obtain ⟨hcloses, hiff⟩ := closes_displayName hdefinition hshown
      refine ⟨hcloses, fun hbalanced => ?_⟩
      rw [hiff, List.forall_mem_map] at hbalanced
      refine .instantiated shown isListed hname hdefinition ?_ ?_
      · intro argument hargument hlisted
        exact (ih argument hargument hlisted).2 (hbalanced argument hargument)
      · intro argument hargument hlisted
        have heq := (hcut argument hargument hlisted).2
        have hbehind := hbalanced argument hargument
        rw [heq] at hbehind
        exact ⟨(hcutOff argument hargument).2.mp hbehind, heq⟩

theorem ShortName.balanced (h : ShortName session DotOutside fullName name) :
    Balanced name.toList := by
  induction h with
  | seeded hnode =>
      obtain ⟨hopen, hclose⟩ := plain_seed _ hnode
      exact balanced_of_plain hopen hclose
  | declared htype =>
      obtain ⟨hopen, hclose⟩ := hplain _ htype
      exact balanced_of_plain hopen hclose
  | @instantiated fullName generic shown isListed hname hdefinition _ hcut ih =>
      have hshown : ∀ text ∈ generic.arguments.map shown, Balanced text.toList := by
        rw [List.forall_mem_map]
        intro argument hargument
        cases hlisted : isListed argument with
        | true => exact ih argument hargument hlisted
        | false =>
            obtain ⟨hdot, heq⟩ := hcut argument hargument hlisted
            rw [heq]
            exact (closes_simpleName
              (GenericName.balanced_of_mem_arguments hname hargument)).2.mpr hdot
      exact (closes_displayName hdefinition fun text htext =>
        ⟨0, closes_zero_iff.mpr (hshown text htext)⟩).2.mpr hshown

end Plain

private theorem ShortName.of_listed {session : Session} {mayCut : String → Prop}
    {fullName definition argument name : String}
    (hname : GenericName.ofString? fullName = some ⟨definition, [argument]⟩)
    (hdefinition : Builder.isSynthesized definition = true)
    (h : ShortName session mayCut argument name) :
    ShortName session mayCut fullName
      (GenericName.displayName (Seed.simpleName definition) [name]) := by
  refine @ShortName.instantiated _ _ _ ⟨definition, [argument]⟩ (fun _ => name) (fun _ => true)
    hname hdefinition ?_ ?_
  · exact List.forall_mem_singleton.mpr fun _ => h
  · exact fun _ _ hcut => absurd hcut (by decide)

private theorem ShortName.of_plain {session : Session} {mayCut : String → Prop}
    {fullName name : String}
    (h : ShortName session mayCut fullName name) (hopen : '<' ∉ fullName.toList) :
    ShortName session DotOutside fullName name := by
  cases h with
  | seeded hnode => exact .seeded hnode
  | declared htype => exact .declared htype
  | instantiated _ _ hname _ _ _ => exact absurd (open_mem_of_ofString? hname) hopen

/-- If the arguments of an instance are none themselves, a cut does no harm. -/
theorem ShortName.of_plain_arguments {session : Session} {mayCut : String → Prop}
    {fullName name : String} (h : ShortName session mayCut fullName name) {generic : GenericName}
    (hname : GenericName.ofString? fullName = some generic)
    (hopen : ∀ argument ∈ generic.arguments, '<' ∉ argument.toList) :
    ShortName session DotOutside fullName name := by
  cases h with
  | seeded hnode => exact .seeded hnode
  | declared htype => exact .declared htype
  | instantiated shown isListed hother hdefinition hlisted hcut =>
      obtain rfl := Option.some.inj (hother.symm.trans hname)
      refine .instantiated shown isListed hname hdefinition ?_ ?_
      · intro argument hargument hshown
        exact (hlisted argument hargument hshown).of_plain (hopen argument hargument)
      · intro argument hargument hshown
        have hbalanced := GenericName.balanced_of_mem_arguments hname hargument
        exact ⟨dotOutside_of_plain hbalanced (hopen argument hargument),
          (hcut argument hargument hshown).2⟩

/-! ### The names of a graph -/

/-- Every type of the graph has a short name that belongs to its full name. -/
def ShortlyNamed (session : Session) (graph : TypeGraph) : Prop :=
  ∀ node ∈ graph.types, ShortName session (fun _ => True) node.fullName node.name

variable {scope : Scope} {builder next : Builder}

section

variable {session : Session} {graph other : TypeGraph}

theorem ShortlyNamed.congr (h : ShortlyNamed session graph)
    (hsame : other.types.map (fun node => (node.fullName, node.name)) =
      graph.types.map fun node => (node.fullName, node.name)) : ShortlyNamed session other := by
  intro node hnode
  have hmem := List.mem_map_of_mem (f := fun node : Node => (node.fullName, node.name)) hnode
  rw [hsame, List.mem_map] at hmem
  obtain ⟨before, hbefore, heq⟩ := hmem
  obtain ⟨hfull, hname⟩ := Prod.mk.inj heq
  rw [← hfull, ← hname]
  exact h before hbefore

private theorem ShortlyNamed.add_node (h : ShortlyNamed session graph) {node : Node}
    (hnode : ShortName session (fun _ => True) node.fullName node.name) :
    ShortlyNamed session (graph.add node) :=
  List.forall_mem_append.mpr ⟨h, List.forall_mem_singleton.mpr hnode⟩

theorem ShortlyNamed.instanceName (h : ShortlyNamed session graph) (hindexed : graph.Indexed)
    {name : String} {generic : GenericName} (hname : GenericName.ofString? name = some generic)
    (hdefinition : Builder.isSynthesized generic.definition = true) :
    ShortName session (fun _ => True) name (Builder.instanceName graph generic) := by
  refine .instantiated (Builder.argumentName graph)
    (fun argument => ((graph.find? argument).bind graph.get?).isSome) hname hdefinition ?_ ?_
  · intro argument _ hlisted
    obtain ⟨node, hnode⟩ := Option.isSome_iff_exists.mp hlisted
    obtain ⟨id, hfind, hget⟩ := Option.bind_eq_some_iff.mp hnode
    obtain ⟨found, hfound, -, rfl⟩ := hindexed.exists_node hfind
    obtain rfl := Option.some.inj (hget.symm.trans hfound)
    rw [Builder.argumentName, hnode]
    exact h node (List.mem_of_getElem? hget)
  · intro argument _ hlisted
    rw [Option.isSome_eq_false_iff, Option.isNone_iff_eq_none] at hlisted
    rw [Builder.argumentName, hlisted]
    exact ⟨trivial, rfl⟩

end

private theorem shortlyNamed_ensure (h : ShortlyNamed scope.session builder.graph)
    {type : SessionType} (htype : type ∈ scope.session.types) :
    ShortlyNamed scope.session (builder.ensure type).2.graph := by
  rcases ensure_cases builder type with ⟨id, -, heq⟩ | ⟨-, id, label, -, -, -, heq⟩ |
    ⟨-, -, heq⟩
  · rw [heq]
    exact h
  · rw [heq]
    intro node hnode
    rcases mem_types_modify hnode with hold | ⟨before, -, rfl⟩
    · exact h node hold
    · exact .declared htype
  · rw [heq]
    exact h.add_node (.declared htype)

private theorem shortlyNamed_resolvesBy (scope : Scope) :
    ResolvesBy scope fun builder next => builder.graph.Indexed →
      ShortlyNamed scope.session builder.graph → ShortlyNamed scope.session next.graph := by
  have hplain (name : String) (builder : Builder) (h : ShortlyNamed scope.session builder.graph) :
      ShortlyNamed scope.session (builder.resolvePlain scope name).2.graph := by
    rcases resolvePlain_cases scope name builder with heq | ⟨type, htype, heq⟩
    · rw [heq]
      exact h
    · rw [heq]
      exact shortlyNamed_ensure h htype
  refine ⟨fun _ _ h => h, fun name builder _ => hplain name builder, fun _ _ _ h => h, ?_⟩
  intro name generic start room reference isComplete hname hdefinition found resolved hresolved
    hindexed h
  have hfound := Grows.continues (resolvePlain_grows scope generic.definition start) hindexed
  have hgraph := hresolved hfound.indexed (hplain generic.definition start h)
  have hlater := Grows.continues (resolveWithin_grows scope room reference found.2) hfound.indexed
  have hshort := hgraph.instanceName hlater.indexed hname hdefinition
  refine hgraph.add_node ?_
  unfold Builder.instanceNode
  split
  · exact hshort
  · exact hshort

/-- A step changes the name of a type at most to one that belongs to it too. -/
theorem Step.shortlyNamed (h : Step scope builder next) (hindexed : builder.graph.Indexed)
    (hnamed : ShortlyNamed scope.session builder.graph) :
    ShortlyNamed scope.session next.graph := by
  cases h with
  | request hrequest =>
      cases hrequest with
      | ensure htype => exact shortlyNamed_ensure hnamed htype
      | @resolve room reference _ =>
          exact (shortlyNamed_resolvesBy scope).resolveWithin room reference builder hindexed
            hnamed
  | @members _ id gathered argument _ _ =>
      exact hnamed.congr (map_modify_eq builder.graph id fun _ => rfl)
  | annotate hannotate =>
      exact hnamed.congr (Annotates.map_eq (fun _ _ => rfl) (fun _ _ => rfl) (.single hannotate))

private theorem shortlyNamed_convert (settings : Settings) (session : Session) :
    ShortlyNamed session (convert settings session) := by
  obtain ⟨final, hrun, hfinal⟩ := run_convert settings session
  rw [← hfinal]
  clear hfinal
  induction hrun with
  | refl => exact fun node hnode => .seeded hnode
  | tail hfirst hlast ih =>
      exact hlast.shortlyNamed (Run.continues hfirst indexed_seed).indexed ih

/-- A type is called by a name that belongs to its full name. If the names of the session's types
have no brackets, no bracket of it stays open, and it closes too many exactly if an argument was cut
through its brackets. An instance whose arguments are none themselves has a balanced name. -/
theorem balanced_name_iff (settings : Settings) (session : Session)
    (hplain : ∀ type ∈ session.types,
      '<' ∉ type.decl.name.toList ∧ '>' ∉ type.decl.name.toList)
    {node : Node} (hnode : node ∈ (convert settings session).types) :
    ShortName session (fun _ => True) node.fullName node.name ∧
      (∃ depth, Closes depth node.name.toList) ∧
      (Balanced node.name.toList ↔ ShortName session DotOutside node.fullName node.name) ∧
      ∀ generic, GenericName.ofString? node.fullName = some generic →
        (∀ argument ∈ generic.arguments, '<' ∉ argument.toList) → Balanced node.name.toList := by
  have hshort := shortlyNamed_convert settings session node hnode
  obtain ⟨hcloses, hclean⟩ := hshort.exists_closes hplain
  refine ⟨hshort, hcloses, ⟨hclean, fun h => h.balanced hplain⟩, fun generic hname hopen => ?_⟩
  exact (hshort.of_plain_arguments hname hopen).balanced hplain

/-- A library with a list of items that may be missing. -/
def boardLibrary : Library :=
  { name := "App"
    types :=
      [{ namespaceName := "App", name := "Board"
         properties :=
          [{ name := "Cells"
             typeName := "System.Nullable`1<System.Collections.Generic.List`1<App.Item>>"
             getter := some .everywhere }] },
       { namespaceName := "App", name := "Item" }] }

private theorem plain_boardLibrary :
    ∀ type ∈ (Session.withTarget (some "App") [boardLibrary] {}).types,
    '<' ∉ type.decl.name.toList ∧ '>' ∉ type.decl.name.toList := by
  have hall : (Session.withTarget (some "App") [boardLibrary] {}).types.all fun type =>
      type.decl.name.toList.all fun c => c ≠ '<' && c ≠ '>' := by decide +kernel
  intro type htype
  exact plain_of_all (List.all_eq_true.mp hall type htype)

theorem balanced_name_board :
    ∃ node ∈ (convert {} (.withTarget (some "App") [boardLibrary] {})).types,
      IsInstance node ∧ node.name = "Nullable<List<Item>>" ∧ Balanced node.name.toList := by
  have houter : GenericName.ofString?
      "System.Nullable`1<System.Collections.Generic.List`1<App.Item>>" =
        some ⟨"System.Nullable`1", ["System.Collections.Generic.List`1<App.Item>"]⟩ := by
    decide +kernel
  have hinner : GenericName.ofString? "System.Collections.Generic.List`1<App.Item>" =
      some ⟨"System.Collections.Generic.List`1", ["App.Item"]⟩ := by
    decide +kernel
  obtain ⟨hfields, hitem⟩ :
      ((convert {} (.withTarget (some "App") [boardLibrary] {})).get? 27).map
        (fun node => (node.handle, node.isBuiltin, node.fullName, node.name)) =
          some (none, false, "System.Nullable`1<System.Collections.Generic.List`1<App.Item>>",
            "Nullable<List<Item>>") ∧
      (Session.withTarget (some "App") [boardLibrary] {}).types.any
        (fun type => type.fullName = "App.Item" && type.decl.name = "Item") := by
    decide +kernel
  obtain ⟨node, hnode, hinstance, hfull, hname⟩ :=
    exists_isInstance (Option.isSome_of_eq_some houter) hfields
  have hmem := List.mem_of_getElem? hnode
  obtain ⟨-, -, hiff, -⟩ := balanced_name_iff {} _ plain_boardLibrary hmem
  refine ⟨node, hmem, hinstance, hname, hiff.mpr ?_⟩
  obtain ⟨type, htype, hnames⟩ := List.any_eq_true.mp hitem
  simp only [Bool.and_eq_true, decide_eq_true_eq] at hnames
  have hshort : ShortName (.withTarget (some "App") [boardLibrary] {}) DotOutside
      type.fullName type.decl.name := .declared htype
  rw [hnames.1, hnames.2] at hshort
  rw [hfull, hname, ← show GenericName.displayName (Seed.simpleName "System.Nullable`1")
    [GenericName.displayName (Seed.simpleName "System.Collections.Generic.List`1") ["Item"]] =
      "Nullable<List<Item>>" by decide +kernel]
  exact .of_listed houter (by decide +kernel) (.of_listed hinner (by decide +kernel) hshort)

/-- A library with a property of a generic type that it does not know. -/
def cardLibrary : Library :=
  { name := "App"
    types :=
      [{ namespaceName := "App", name := "Card"
         properties := [{ name := "Size", typeName := "System.Nullable`1<App.Pair`1<App.Item>>"
                          getter := some .everywhere }] }] }

/-- The argument is cut through its brackets. -/
theorem not_balanced_name_card :
    (∀ type ∈ (Session.withTarget (some "App") [cardLibrary] {}).types,
        '<' ∉ type.decl.name.toList ∧ '>' ∉ type.decl.name.toList) ∧
      ∃ node ∈ (convert {} (.withTarget (some "App") [cardLibrary] {})).types,
        IsInstance node ∧ node.name = "Nullable<Item>>" ∧ ¬ Balanced node.name.toList := by
  have hparsed : GenericName.ofString? "System.Nullable`1<App.Pair`1<App.Item>>" =
      some ⟨"System.Nullable`1", ["App.Pair`1<App.Item>"]⟩ := by
    decide +kernel
  obtain ⟨hall, hfields⟩ :
      ((Session.withTarget (some "App") [cardLibrary] {}).types.all fun type =>
        type.decl.name.toList.all fun c => c ≠ '<' && c ≠ '>') ∧
      ((convert {} (.withTarget (some "App") [cardLibrary] {})).get? 25).map
        (fun node => (node.handle, node.isBuiltin, node.fullName, node.name)) =
          some (none, false, "System.Nullable`1<App.Pair`1<App.Item>>", "Nullable<Item>>") := by
    decide +kernel
  obtain ⟨node, hnode, hinstance, -, hname⟩ :=
    exists_isInstance (Option.isSome_of_eq_some hparsed) hfields
  refine ⟨fun type htype => plain_of_all (List.all_eq_true.mp hall type htype), node,
    List.mem_of_getElem? hnode, hinstance, hname, fun hbalanced => ?_⟩
  rw [hname] at hbalanced
  exact absurd hbalanced.count_eq (by decide)

end XamlAssist.Conversion
