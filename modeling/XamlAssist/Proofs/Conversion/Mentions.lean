import Mathlib.Data.List.Basic
import XamlAssist.Conversion.Hints
import XamlAssist.Proofs.GenericName

/-!
# The names that a conversion looks for

Resolving a reference and gathering the members of a type look for names in the session. Main
statements: `resolve_congr` and `ReadsAlike.gathersAlike`, two sessions that know alike what is
mentioned make no difference to what is found.
-/

namespace XamlAssist.Library

/-- The texts by which a method refers to types. -/
def Method.references (method : Method) : List String :=
  method.returnType.toList ++ method.parameters.map Parameter.typeName

/-- The texts by which a type may refer to others. -/
def TypeDecl.references (type : TypeDecl) : List String :=
  type.baseType.toList ++ type.properties.map Property.typeName ++
    type.fields.map Field.typeName ++ type.methods.flatMap Method.references ++
    type.constructors.flatMap Method.references ++ type.events.map Event.handlerType ++
    type.attributes.flatMap Attribute.arguments ++
    type.properties.flatMap fun property => property.attributes.flatMap Attribute.arguments

end XamlAssist.Library

namespace XamlAssist.Conversion

open TypeGraph Library

/-- A text as it is written and without the blanks around it. -/
def spellings (text : String) : List String := [text, String.ofList (Text.trim text.toList)]

/-- A text that refers to a type mentions itself, the type that it is an instance of, and all that
its arguments mention. -/
inductive Mentions : String → String → Prop
  | spelling {text spelled : String} : spelled ∈ spellings text → Mentions text spelled
  | definition {text spelled : String} :
      spelled ∈ spellings text → Mentions text (GenericName.definitionName spelled)
  | argument {text spelled argument name : String} {generic : GenericName} :
      spelled ∈ spellings text → GenericName.ofString? spelled = some generic →
        argument ∈ generic.arguments → Mentions argument name → Mentions text name

/-- Whether a text may mention a name, where arguments below the given depth may mention
anything. -/
def mightMention : Nat → String → String → Bool
  | 0, _, _ => true
  | depth + 1, text, name =>
      (spellings text).any fun spelled =>
        spelled = name || GenericName.definitionName spelled = name ||
          (GenericName.ofString? spelled).any fun generic =>
            generic.arguments.any (mightMention depth · name)

theorem not_mentions_of_mightMention {depth : Nat} {text name : String}
    (h : mightMention depth text name = false) : ¬ Mentions text name := by
  intro hmentions
  induction hmentions generalizing depth with
  | spelling hspelled =>
      cases depth with
      | zero => exact absurd h (by simp [mightMention])
      | succ depth =>
          rw [mightMention, List.any_eq_false] at h
          simpa using h _ hspelled
  | definition hspelled =>
      cases depth with
      | zero => exact absurd h (by simp [mightMention])
      | succ depth =>
          rw [mightMention, List.any_eq_false] at h
          simpa using h _ hspelled
  | argument hspelled hgeneric hargument _ ih =>
      cases depth with
      | zero => exact absurd h (by simp [mightMention])
      | succ depth =>
          rw [mightMention, List.any_eq_false] at h
          have harguments := h _ hspelled
          simp only [hgeneric, Option.any_some, Bool.or_eq_true, List.any_eq_true, not_or,
            not_exists, not_and, Bool.not_eq_true] at harguments
          exact ih (harguments.2 _ hargument)

/-- Two scopes know a name alike: it stands for types that are described in the same way. -/
def KnowAlike (scope other : Scope) (name : String) : Prop :=
  (other.type? name).map describe = (scope.type? name).map describe

/-- Two scopes read a text alike: they know alike all that it mentions. -/
def ReadAlike (scope other : Scope) (text : String) : Prop :=
  ∀ name, Mentions text name → KnowAlike scope other name

variable {scope other : Scope} {text : String}

theorem ReadAlike.headD {spelled : String} {generic : GenericName}
    (h : ReadAlike scope other text) (hspelled : spelled ∈ spellings text)
    (hgeneric : GenericName.ofString? spelled = some generic) :
    ReadAlike scope other (generic.arguments.headD "") :=
  fun name hname =>
    h name (.argument hspelled hgeneric (GenericName.headD_mem_arguments hgeneric) hname)

theorem ReadAlike.definition {spelled : String} {generic : GenericName}
    (h : ReadAlike scope other text) (hspelled : spelled ∈ spellings text)
    (hgeneric : GenericName.ofString? spelled = some generic) :
    KnowAlike scope other generic.definition := by
  have hname := h _ (.definition hspelled)
  rw [GenericName.definitionName, hgeneric] at hname
  exact hname

/-! ### Resolving -/

theorem ensure_eq_of_describe {type met : SessionType} (h : describe met = describe type)
    (builder : Builder) : builder.ensure met = builder.ensure type := by
  have hhandle : met.handle = type.handle := Option.some.inj (congrArg Node.handle h)
  have hname : met.fullName = type.fullName := congrArg Node.fullName h
  simp only [Builder.ensure, hhandle, hname, h]

private theorem resolvePlain_congr {name : String} (h : KnowAlike scope other name)
    (builder : Builder) :
    builder.resolvePlain other name = builder.resolvePlain scope name := by
  unfold Builder.resolvePlain
  unfold KnowAlike at h
  cases hscope : scope.type? name with
  | none =>
      rw [hscope, Option.map_none, Option.map_eq_none_iff] at h
      rw [h]
  | some type =>
      rw [hscope, Option.map_some, Option.map_eq_some_iff] at h
      obtain ⟨met, hother, hdescribe⟩ := h
      simp only [hother, ensure_eq_of_describe hdescribe]

private theorem resolveInstance_congr {room : Nat}
    {resolve resolve' : Option (String → Builder → Option TypeId × Builder)} {name : String}
    {generic : GenericName} (hdefinition : KnowAlike scope other generic.definition)
    (hresolve : resolve'.map (· (generic.arguments.headD "")) =
      resolve.map (· (generic.arguments.headD ""))) (builder : Builder) :
    builder.resolveInstance other room resolve' name generic =
      builder.resolveInstance scope room resolve name generic := by
  unfold Builder.resolveInstance
  simp only [resolvePlain_congr hdefinition]
  cases resolve with
  | none =>
      rw [Option.map_none, Option.map_eq_none_iff] at hresolve
      rw [hresolve]
  | some resolve =>
      rw [Option.map_some, Option.map_eq_some_iff] at hresolve
      obtain ⟨resolve', rfl, heq⟩ := hresolve
      cases Builder.isSynthesized generic.definition with
      | false => rfl
      | true => simp only [heq]

private theorem resolveReference_congr {room : Nat}
    {resolve resolve' : Option (String → Builder → Option TypeId × Builder)}
    (h : ReadAlike scope other text)
    (hresolve : ∀ argument, ReadAlike scope other argument →
      resolve'.map (· argument) = resolve.map (· argument)) (builder : Builder) :
    builder.resolveReference other room resolve' text =
      builder.resolveReference scope room resolve text := by
  have htrim : String.ofList (Text.trim text.toList) ∈ spellings text := by simp [spellings]
  unfold Builder.resolveReference
  dsimp only
  split
  · rfl
  split
  · exact resolvePlain_congr (h _ (.spelling htrim)) builder
  · next hgeneric =>
      exact resolveInstance_congr (h.definition htrim hgeneric)
        (hresolve _ (h.headD htrim hgeneric)) builder

private theorem resolveWithin_congr (h : ReadAlike scope other text) (room : Nat) :
    Builder.resolveWithin other room text = Builder.resolveWithin scope room text := by
  induction room generalizing text with
  | zero =>
      funext builder
      exact resolveReference_congr h (fun _ _ => rfl) builder
  | succ room ih =>
      funext builder
      refine resolveReference_congr h (fun argument hargument => ?_) builder
      rw [Option.map_some, Option.map_some, ih hargument]

/-- What a reference stands for depends only on the names that it mentions. -/
theorem resolve_congr (hsettings : other.settings = scope.settings)
    (h : ReadAlike scope other text) (builder : Builder) :
    builder.resolve other text = builder.resolve scope text := by
  rw [Builder.resolve, Builder.resolve, hsettings, resolveWithin_congr h]

private theorem resolveOptional_congr (hsettings : other.settings = scope.settings)
    {reference : Option String} (h : ∀ text ∈ reference, ReadAlike scope other text)
    (builder : Builder) :
    builder.resolveOptional other reference = builder.resolveOptional scope reference := by
  cases reference with
  | none => rfl
  | some text => exact resolve_congr hsettings (h text rfl) builder

/-! ### Gathering members -/

/-- The names that a conversion looks for by itself. -/
def ownNames : List String :=
  [Known.routedEventArguments, Known.eventArguments, Known.brushes, Known.colors]

private theorem eq_of_mentions_plain {name : String}
    (htrim : String.ofList (Text.trim text.toList) = text)
    (hplain : GenericName.ofString? text = none) (h : Mentions text name) : name = text := by
  have hspelled {spelled : String} (hmem : spelled ∈ spellings text) : spelled = text := by
    simpa [spellings, htrim] using hmem
  cases h with
  | spelling hmem => exact hspelled hmem
  | definition hmem => rw [hspelled hmem, GenericName.definitionName, hplain]
  | argument hmem hgeneric =>
      rw [hspelled hmem, hplain] at hgeneric
      exact absurd hgeneric (by simp)

/-- Two scopes with the same settings that know alike the names that every conversion looks for. -/
structure Agree (scope other : Scope) : Prop where
  settings : other.settings = scope.settings
  own : ∀ name ∈ ownNames, KnowAlike scope other name

private theorem Agree.readAlike (h : Agree scope other) {name : String} (hname : name ∈ ownNames) :
    ReadAlike scope other name := by
  have hplain : ∀ name ∈ ownNames, String.ofList (Text.trim name.toList) = name ∧
      GenericName.ofString? name = none := by decide +kernel
  intro mentioned hmentioned
  rw [eq_of_mentions_plain (hplain name hname).1 (hplain name hname).2 hmentioned]
  exact h.own name hname

/-- Two scopes read a type alike: they have the same access to its library and read alike all its
references. -/
structure ReadsAlike (scope other : Scope) (type : SessionType) : Prop where
  access : other.accessOf type.library = scope.accessOf type.library
  references : ∀ text ∈ type.decl.references, ReadAlike scope other text

/-- A type in one scope and its counterpart in another give the same members. -/
structure GathersAlike (scope other : Scope) (type counterpart : SessionType) : Prop where
  inherited : ∀ state, gatherType other state counterpart = gatherType scope state type
  properties : ∀ id state,
    counterpart.decl.fields.foldl
        (gatherAttachedProperty other (other.accessOf counterpart.library) counterpart.decl id)
        state =
      type.decl.fields.foldl
        (gatherAttachedProperty scope (scope.accessOf type.library) type.decl id) state
  events : ∀ id state,
    counterpart.decl.fields.foldl
        (gatherAttachedEvent other (other.accessOf counterpart.library) id) state =
      type.decl.fields.foldl (gatherAttachedEvent scope (scope.accessOf type.library) id) state
  arguments : ∀ state,
    counterpart.decl.constructors.foldl (gatherArgument other) state =
      type.decl.constructors.foldl (gatherArgument scope) state

theorem GathersAlike.trans {last : Scope} {type counterpart final : SessionType}
    (h : GathersAlike scope other type counterpart)
    (hlast : GathersAlike other last counterpart final) : GathersAlike scope last type final where
  inherited state := (hlast.inherited state).trans (h.inherited state)
  properties id state := (hlast.properties id state).trans (h.properties id state)
  events id state := (hlast.events id state).trans (h.events id state)
  arguments state := (hlast.arguments state).trans (h.arguments state)

section Congruence

variable {access : Access} {declaring : TypeId} {type : TypeDecl}

private theorem gatherProperty_congr (hagree : Agree scope other) {property : Library.Property}
    (h : ReadAlike scope other property.typeName) (state : List TypeGraph.Property × Builder) :
    gatherProperty other access declaring state property =
      gatherProperty scope access declaring state property := by
  simp only [gatherProperty, resolve_congr hagree.settings h]

private theorem resolveArguments_congr (hagree : Agree scope other) (h : ReadAlike scope other text)
    (builder : Builder) :
    resolveArguments other text builder = resolveArguments scope text builder := by
  unfold resolveArguments
  split
  · next hgeneric =>
      rw [resolve_congr hagree.settings (h.headD List.mem_cons_self hgeneric)]
  · rw [resolve_congr hagree.settings (hagree.readAlike (by simp [ownNames]))]

private theorem gatherEvent_congr (hagree : Agree scope other) {event : Library.Event}
    (h : ReadAlike scope other event.handlerType) (state : List TypeGraph.Event × Builder) :
    gatherEvent other access declaring state event =
      gatherEvent scope access declaring state event := by
  simp only [gatherEvent, resolveArguments_congr hagree h]

private theorem gatherTemplatePart_congr (hagree : Agree scope other) {declared : Attribute}
    (h : ∀ text ∈ declared.arguments, ReadAlike scope other text)
    (state : List TemplatePart × Builder) :
    gatherTemplatePart other state declared = gatherTemplatePart scope state declared := by
  have hpart : ∀ text ∈ declared.arguments[1]?, ReadAlike scope other text :=
    fun text htext => h text (List.mem_of_getElem? htext)
  simp only [gatherTemplatePart, resolveOptional_congr hagree.settings hpart]

private theorem resolveItems_congr (hagree : Agree scope other) {baseType : Option String}
    (h : ∀ text ∈ baseType, ReadAlike scope other text) (builder : Builder) :
    resolveItems other baseType builder = resolveItems scope baseType builder := by
  unfold resolveItems
  split
  · rfl
  · next hgeneric =>
      obtain ⟨text, htext, hgeneric⟩ := Option.bind_eq_some_iff.mp hgeneric
      rw [resolve_congr hagree.settings ((h text htext).headD List.mem_cons_self hgeneric)]

private theorem mem_of_accessor? {name : String} {arity : Nat} {method : Method}
    (h : accessor? access type name arity = some method) : method ∈ type.methods :=
  List.mem_of_find?_eq_some h

private theorem readAlike_valueType? {field : Field} {getter setter : Option Method}
    (hgetter : ∀ method ∈ getter, ∀ text ∈ method.references, ReadAlike scope other text)
    (hsetter : ∀ method ∈ setter, ∀ text ∈ method.references, ReadAlike scope other text)
    (hfield : ReadAlike scope other field.typeName) :
    ∀ text ∈ valueType? getter setter field, ReadAlike scope other text := by
  intro text htext
  rw [valueType?, Option.mem_def, Option.or_eq_some_iff, Option.or_eq_some_iff] at htext
  rcases htext with hreturn | ⟨-, hparameter | ⟨-, hargument⟩⟩
  · obtain ⟨method, hmethod, htext⟩ := Option.bind_eq_some_iff.mp hreturn
    exact hgetter method hmethod text (by simp [Method.references, htext])
  · obtain ⟨method, hmethod, htext⟩ := Option.bind_eq_some_iff.mp hparameter
    obtain ⟨parameter, hvalue, rfl⟩ := Option.map_eq_some_iff.mp htext
    have hmem : parameter.typeName ∈ method.parameters.map Parameter.typeName :=
      List.mem_map_of_mem (List.mem_of_getElem? hvalue)
    exact hsetter method hmethod _ (List.mem_append_right _ hmem)
  · obtain ⟨generic, hgeneric, htext⟩ := Option.bind_eq_some_iff.mp hargument
    intro name hname
    exact hfield name (.argument List.mem_cons_self hgeneric (List.mem_of_head? htext) hname)

private theorem gatherAttachedProperty_congr (hagree : Agree scope other) {field : Field}
    (hmethods : ∀ method ∈ type.methods, ∀ text ∈ method.references, ReadAlike scope other text)
    (hfield : ReadAlike scope other field.typeName) (state : List TypeGraph.Property × Builder) :
    gatherAttachedProperty other access type declaring state field =
      gatherAttachedProperty scope access type declaring state field := by
  unfold gatherAttachedProperty
  split
  · rfl
  · next name _ =>
      have haccessor (accessorName : String) (arity : Nat) :
          ∀ method ∈ accessor? access type accessorName arity,
            ∀ text ∈ method.references, ReadAlike scope other text :=
        fun method hmethod => hmethods method (mem_of_accessor? hmethod)
      simp only [resolveOptional_congr hagree.settings
        (readAlike_valueType? (haccessor ("Get" ++ name) 1) (haccessor ("Set" ++ name) 2) hfield)]

private theorem gatherAttachedEvent_congr (hagree : Agree scope other) {field : Field}
    (hfield : ReadAlike scope other field.typeName) (state : List TypeGraph.Event × Builder) :
    gatherAttachedEvent other access declaring state field =
      gatherAttachedEvent scope access declaring state field := by
  unfold gatherAttachedEvent
  split
  · rfl
  split
  · rfl
  have hreference : ReadAlike scope other (eventReference field) := by
    unfold eventReference
    cases hgeneric : GenericName.ofString? field.typeName with
    | some generic => exact hfield.headD List.mem_cons_self hgeneric
    | none => exact hagree.readAlike List.mem_cons_self
  simp only [resolve_congr hagree.settings hreference]

private theorem gatherArgument_congr (hagree : Agree scope other) {constructor : Method}
    (h : ∀ text ∈ constructor.references, ReadAlike scope other text)
    (state : ArgumentKinds × Builder) :
    gatherArgument other state constructor = gatherArgument scope state constructor := by
  unfold gatherArgument
  split
  · next parameter _ hparameters =>
      have hmem : parameter.typeName ∈ constructor.references := by
        simp [Method.references, hparameters]
      simp only [resolve_congr hagree.settings (h _ hmem)]
  · rfl

end Congruence

private theorem ReadsAlike.gatherType_eq {type : SessionType} (h : ReadsAlike scope other type)
    (hagree : Agree scope other) (state : Gathered × Builder) :
    gatherType other state type = gatherType scope state type := by
  have hproperties (declaring : TypeId) (state : List TypeGraph.Property × Builder) :
      type.decl.properties.foldl
          (gatherProperty other (scope.accessOf type.library) declaring) state =
        type.decl.properties.foldl
          (gatherProperty scope (scope.accessOf type.library) declaring) state := by
    refine List.foldl_ext _ _ _ fun state property hmem => gatherProperty_congr hagree ?_ state
    exact h.references _ (by simp [TypeDecl.references, List.mem_map_of_mem hmem])
  have hevents (declaring : TypeId) (state : List TypeGraph.Event × Builder) :
      type.decl.events.foldl (gatherEvent other (scope.accessOf type.library) declaring) state =
        type.decl.events.foldl
          (gatherEvent scope (scope.accessOf type.library) declaring) state := by
    refine List.foldl_ext _ _ _ fun state event hmem => gatherEvent_congr hagree ?_ state
    exact h.references _ (by simp [TypeDecl.references, List.mem_map_of_mem hmem])
  have hparts (state : List TemplatePart × Builder) :
      type.decl.attributes.foldl (gatherTemplatePart other) state =
        type.decl.attributes.foldl (gatherTemplatePart scope) state := by
    refine List.foldl_ext _ _ _ fun state declared hmem => ?_
    refine gatherTemplatePart_congr hagree (fun text htext => ?_) state
    have hargument : text ∈ type.decl.attributes.flatMap Attribute.arguments :=
      List.mem_flatMap.mpr ⟨declared, hmem, htext⟩
    exact h.references text (by simp [TypeDecl.references, hargument])
  have hbase : ∀ text ∈ type.decl.baseType, ReadAlike scope other text :=
    fun text htext => h.references text (by simp [TypeDecl.references, Option.mem_def.mp htext])
  simp only [gatherType, h.access, hproperties, hevents, hparts, resolveItems_congr hagree hbase]

/-- Two scopes that read a type alike gather the same members for it. -/
theorem ReadsAlike.gathersAlike {type : SessionType} (h : ReadsAlike scope other type)
    (hagree : Agree scope other) : GathersAlike scope other type type := by
  have hfields : ∀ field ∈ type.decl.fields, ReadAlike scope other field.typeName :=
    fun field hmem =>
      h.references _ (by simp [TypeDecl.references, List.mem_map_of_mem hmem])
  have hmethods : ∀ method ∈ type.decl.methods, ∀ text ∈ method.references,
      ReadAlike scope other text := by
    intro method hmem text htext
    have hreference : text ∈ type.decl.methods.flatMap Method.references :=
      List.mem_flatMap.mpr ⟨method, hmem, htext⟩
    exact h.references text (by simp [TypeDecl.references, hreference])
  have hconstructors : ∀ constructor ∈ type.decl.constructors, ∀ text ∈ constructor.references,
      ReadAlike scope other text := by
    intro constructor hmem text htext
    have hreference : text ∈ type.decl.constructors.flatMap Method.references :=
      List.mem_flatMap.mpr ⟨constructor, hmem, htext⟩
    exact h.references text (by simp [TypeDecl.references, hreference])
  constructor
  · exact h.gatherType_eq hagree
  · intro id state
    rw [h.access]
    exact List.foldl_ext _ _ _ fun state field hmem =>
      gatherAttachedProperty_congr hagree hmethods (hfields field hmem) state
  · intro id state
    rw [h.access]
    exact List.foldl_ext _ _ _ fun state field hmem =>
      gatherAttachedEvent_congr hagree (hfields field hmem) state
  · intro state
    exact List.foldl_ext _ _ _ fun state constructor hmem =>
      gatherArgument_congr hagree (hconstructors constructor hmem) state

end XamlAssist.Conversion
