import XamlAssist.Proofs.Conversion.Counterpart
import XamlAssist.Proofs.Session

/-!
# Libraries that nothing refers to

Main statement: `convert_append_unused`, a library at the end of a session makes no difference to
the graph if it offers nothing and nothing in the session mentions one of its types.
-/

namespace XamlAssist.Library

/-- The texts by which a library may refer to types. -/
def references (library : Library) : List String :=
  library.attributes.flatMap Attribute.arguments ++ library.types.flatMap TypeDecl.references

end XamlAssist.Library

namespace XamlAssist.Conversion

open TypeGraph Library

/-- A session with one more library at its end. -/
def Scope.append (scope : Scope) (extra : SessionLibrary) : Scope :=
  { scope with
    session := { scope.session with libraries := scope.session.libraries ++ [extra] } }

/-- A library that makes no difference at the end of a session. -/
structure Unused (scope : Scope) (extra : SessionLibrary) : Prop where
  resources : extra.library.resources = []
  target : scope.session.target ≠ some extra.name
  home : ∀ type ∈ scope.session.types, extra.name ≠ type.library
  offered : (scope.append extra).offered extra = []
  own : ∀ type ∈ extra.types, type.fullName ∉ ownNames
  mentioned : ∀ type ∈ extra.types, ∀ user ∈ scope.session.types,
    ∀ text ∈ user.decl.references, ¬ Mentions text type.fullName

variable {scope : Scope} {extra : SessionLibrary}

/-- The types of the other libraries come first, so the new one is asked only for names of its
own. -/
theorem type?_append {name : String} (h : ∀ type ∈ extra.types, type.fullName ≠ name) :
    (scope.append extra).type? name = scope.type? name := by
  have hextra : extra.types.find? (·.fullName = name) = none := by
    simpa using h
  rw [Scope.type?, Scope.append, Session.types, List.flatMap_append, List.find?_append,
    List.flatMap_singleton, hextra, Option.or_none]
  rfl

private theorem targetIdentity_append (h : Unused scope extra) :
    (scope.append extra).targetIdentity = scope.targetIdentity := by
  simp only [Scope.targetIdentity, Scope.append]
  cases htarget : scope.session.target with
  | none => rfl
  | some target =>
      have hne : ¬ extra.name = target := fun heq => h.target (htarget.trans (heq ▸ rfl))
      simp [List.find?_append, hne]

private theorem accessTo_append (h : Unused scope extra) (library : SessionLibrary) :
    (scope.append extra).accessTo library = scope.accessTo library := by
  rw [Scope.accessTo, targetIdentity_append h]
  rfl

private theorem accessOf_append (h : Unused scope extra) {name : String}
    (hname : extra.name ≠ name) :
    (scope.append extra).accessOf name = scope.accessOf name := by
  have hfind : (scope.append extra).session.libraries.reverse.find? (·.name = name) =
      scope.session.libraries.reverse.find? (·.name = name) := by
    simp [Scope.append, hname]
  rw [Scope.accessOf, Scope.accessOf, hfind]
  cases scope.session.libraries.reverse.find? (·.name = name) with
  | none => rfl
  | some library => exact accessTo_append h library

private theorem offered_append (h : Unused scope extra) (library : SessionLibrary) :
    (scope.append extra).offered library = scope.offered library := by
  rw [Scope.offered, Scope.offered, accessTo_append h]

private theorem register_append (h : Unused scope extra) :
    register (scope.append extra) = register scope := by
  have hlibraries : (scope.append extra).session.libraries =
      scope.session.libraries ++ [extra] := rfl
  have hlast (state : List (TypeId × SessionType) × Builder) :
      registerLibrary (scope.append extra) state extra = state := by
    rw [registerLibrary, h.offered, List.foldl_nil]
  rw [register, register, hlibraries, List.foldl_append, List.foldl_cons, List.foldl_nil, hlast]
  refine List.foldl_ext _ _ _ fun state library _ => ?_
  rw [registerLibrary, registerLibrary, offered_append h]

private theorem embedded?_of_no_resources (h : extra.library.resources = []) (session : Session) :
    embedded? session extra = none := by
  simp [embedded?, h]

private theorem addresses_of_no_resources (h : extra.library.resources = []) :
    addresses scope extra = [] := by
  simp [addresses, h, embedded?_of_no_resources h]

/-- Without the library, every type of the session is its own counterpart. -/
theorem Unused.counterpart (h : Unused scope extra) :
    Counterpart scope (scope.append extra) id := by
  have hown : ∀ name ∈ ownNames, (scope.append extra).type? name = scope.type? name :=
    fun name hname => type?_append fun type htype heq => h.own type htype (heq ▸ hname)
  have hknown {user : SessionType} (huser : user ∈ scope.session.types) {text name : String}
      (htext : text ∈ user.decl.references) (hname : Mentions text name) :
      (scope.append extra).type? name = scope.type? name :=
    type?_append fun type htype heq => h.mentioned type htype user huser text htext (heq ▸ hname)
  have hagree : Agree scope (scope.append extra) :=
    ⟨rfl, fun name hname => by rw [KnowAlike, hown name hname]⟩
  constructor
  · rfl
  · exact fun _ _ => rfl
  · intro type htype
    rw [Option.map_id, id, Scope.base?, Scope.base?]
    cases hbase : type.decl.baseType with
    | none => rfl
    | some base =>
        have hreference : base ∈ type.decl.references := by simp [TypeDecl.references, hbase]
        exact hknown htype hreference (.definition List.mem_cons_self)
  · intro type htype
    refine ReadsAlike.gathersAlike ⟨accessOf_append h (h.home type htype), ?_⟩ hagree
    intro text htext name hname
    rw [KnowAlike, hknown htype htext hname]
  · rw [register_append h, Prod.map_id, List.map_id]
  · intro name hname
    rw [hown name hname]
  · funext graph
    rw [addEmbedded, addEmbedded, Scope.append, List.foldl_append, List.foldl_cons, List.foldl_nil,
      addLibrary, embedded?_of_no_resources h.resources]
    rfl
  · rw [Scope.append, List.flatMap_append, List.flatMap_singleton,
      addresses_of_no_resources h.resources, List.append_nil]
    rfl

private theorem append_withTarget (settings : Settings) (target : Option String)
    (libraries : List Library) (files : Files.Tree) (extra : Library) :
    Scope.append ⟨settings, Session.withTarget target libraries files⟩
        (SessionLibrary.ofLibrary libraries.length extra) =
      ⟨settings, Session.withTarget target (libraries ++ [extra]) files⟩ := by
  simp [Scope.append, Session.withTarget, List.mapIdx_append]

/-- A library at the end of a session that has no resources, offers no type and has no type that the
session mentions makes no difference to the graph. -/
theorem convert_append_unused (settings : Settings) (target : Option String)
    (libraries : List Library) (files : Files.Tree) (extra : Library)
    (hresources : extra.resources = [])
    (htarget : target ≠ some extra.name)
    (hname : extra.name ∉ libraries.map Library.name)
    (hoffered : Scope.offered ⟨settings, Session.withTarget target (libraries ++ [extra]) files⟩
      (SessionLibrary.ofLibrary libraries.length extra) = [])
    (hown : ∀ type ∈ extra.types, type.fullName ∉ ownNames)
    (hmentioned : ∀ type ∈ extra.types, ∀ library ∈ libraries, ∀ text ∈ library.references,
      ¬ Mentions text type.fullName) :
    convert settings (Session.withTarget target (libraries ++ [extra]) files) =
      convert settings (Session.withTarget target libraries files) := by
  let scope : Scope := ⟨settings, Session.withTarget target libraries files⟩
  let held := SessionLibrary.ofLibrary libraries.length extra
  have hheld : ∀ type ∈ held.types, ∃ decl ∈ extra.types, type.fullName = decl.fullName := by
    intro type htype
    obtain ⟨index, hindex, rfl⟩ := List.mem_mapIdx.mp htype
    exact ⟨extra.types[index], List.getElem_mem hindex, rfl⟩
  have hunused : Unused scope held := by
    constructor
    · exact hresources
    · exact htarget
    · intro type htype heq
      obtain ⟨library, declared, hlibrary, -, htypeEq⟩ := Session.exists_of_mem_types htype
      have hlibraryName : library.name = extra.name := by
        rw [htypeEq] at heq
        exact heq.symm
      exact hname (hlibraryName ▸ List.mem_map_of_mem (List.mem_of_getElem? hlibrary))
    · rw [append_withTarget]
      exact hoffered
    · intro type htype
      obtain ⟨decl, hdecl, hfull⟩ := hheld type htype
      rw [hfull]
      exact hown decl hdecl
    · intro type htype user huser text htext
      obtain ⟨decl, hdecl, hfull⟩ := hheld type htype
      obtain ⟨library, declared, hlibrary, hdeclared, huserEq⟩ :=
        Session.exists_of_mem_types huser
      rw [hfull]
      refine hmentioned decl hdecl library (List.mem_of_getElem? hlibrary) text ?_
      refine List.mem_append_right _ (List.mem_flatMap.mpr ⟨declared, ?_, ?_⟩)
      · exact List.mem_of_getElem? hdeclared
      · rw [huserEq] at htext
        exact htext
  have hconvert := hunused.counterpart.convert_eq
  rw [append_withTarget] at hconvert
  exact hconvert

/-- A window that refers to generic types, with blanks around the references. -/
def windowLibraries : List Library :=
  [{ name := "App"
     attributes :=
      [{ typeName := xmlnsDefinition, arguments := ["urn:app", "App"] }]
     types :=
      [{ namespaceName := "App", name := "Window", baseType := some "Lib.Panel<App.Card>"
         properties :=
          [{ name := "Card", typeName := " System.Nullable<Lib.List<App.Card, App.Key>> "
             getter := some .everywhere }]
         events := [{ name := "Opened", handlerType := "System.EventHandler<App.Card>" }] }] },
   { name := "Lib", types := [{ namespaceName := "Lib", name := "Panel`1" }] }]

/-- An internal type with the name of the window, which nothing refers to, and an interface with the
name of a type of the seed. -/
def spareLibrary : Library :=
  { name := "Spare"
    types :=
      [{ namespaceName := "App", name := "Window", visibility := .sameLibrary
         properties := [{ name := "Spare", typeName := "App.Card", getter := some .everywhere }] },
       { namespaceName := "System", name := "String", isInterface := true }] }

theorem convert_append_unused_spare :
    let session := Session.withTarget (some "App") windowLibraries {}
    let extended := Session.withTarget (some "App") (windowLibraries ++ [spareLibrary]) {}
    spareLibrary.resources = [] ∧ some "App" ≠ some spareLibrary.name ∧
      spareLibrary.name ∉ windowLibraries.map Library.name ∧
      Scope.offered ⟨{}, extended⟩ (SessionLibrary.ofLibrary 2 spareLibrary) = [] ∧
      (∀ type ∈ spareLibrary.types, type.fullName ∉ ownNames) ∧
      (∀ type ∈ spareLibrary.types, ∀ library ∈ windowLibraries, ∀ text ∈ library.references,
        ¬ Mentions text type.fullName) ∧
      convert {} extended = convert {} session := by
  have htarget : some "App" ≠ some spareLibrary.name := by decide +kernel
  have hname : spareLibrary.name ∉ windowLibraries.map Library.name := by decide +kernel
  have hoffered : Scope.offered
      ⟨{}, Session.withTarget (some "App") (windowLibraries ++ [spareLibrary]) {}⟩
      (SessionLibrary.ofLibrary 2 spareLibrary) = [] := by decide +kernel
  have hown : ∀ type ∈ spareLibrary.types, type.fullName ∉ ownNames := by decide +kernel
  have hmight : ∀ type ∈ spareLibrary.types, ∀ library ∈ windowLibraries,
      ∀ text ∈ library.references, mightMention 4 text type.fullName = false := by decide +kernel
  have hmentioned : ∀ type ∈ spareLibrary.types, ∀ library ∈ windowLibraries,
      ∀ text ∈ library.references, ¬ Mentions text type.fullName :=
    fun type htype library hlibrary text htext =>
      not_mentions_of_mightMention (hmight type htype library hlibrary text htext)
  exact ⟨rfl, htarget, hname, hoffered, hown, hmentioned,
    convert_append_unused {} (some "App") windowLibraries {} spareLibrary rfl htarget hname
      hoffered hown hmentioned⟩

end XamlAssist.Conversion
