import XamlAssist.Files.Path

/-!
# Descriptions of compiled libraries

A library is described by its attributes, its embedded resources and its types with their members.
Types are referred to by their full names, such as `System.Nullable<Avalonia.Media.Color>`.
-/

namespace XamlAssist

/-- The place of a type in a session: the number of its library and its number there. Both are
stored in 32 bits, which is enough as long as there are fewer than `2 ^ 32` libraries and types. -/
structure Handle where
  library : Nat := 0
  index : Nat := 0
  deriving DecidableEq, Repr, Inhabited

namespace Library

/-- Who may use a type or a member. -/
inductive Visibility
  | everywhere
  | sameLibrary
  | derivedOrSameLibrary
  | derived
  | nowhere
  deriving DecidableEq, Repr, Inhabited

namespace Visibility

/-- Every visibility, the widest first. -/
def all : List Visibility := [everywhere, sameLibrary, derivedOrSameLibrary, derived, nowhere]

/-- The word for a visibility in a description. -/
def word : Visibility → String
  | everywhere => "public"
  | sameLibrary => "internal"
  | derivedOrSameLibrary => "protected_internal"
  | derived => "protected"
  | nowhere => "private"

/-- The visibility with the given word. -/
def ofWord? (word : String) : Option Visibility := all.find? (·.word = word)

def isPublic (visibility : Visibility) : Bool := visibility = everywhere

/-- Whether another library that is granted the internals may use it. -/
def isInternalOrPublic : Visibility → Bool
  | everywhere | sameLibrary | derivedOrSameLibrary => true
  | derived | nowhere => false

end Visibility

/-- An attribute on a type, a member or a library, with its arguments as text. -/
structure Attribute where
  typeName : String := ""
  arguments : List String := []
  deriving DecidableEq, Repr, Inhabited

structure Property where
  name : String := ""
  typeName : String := ""
  isStatic : Bool := false
  /-- Who may read it, if it can be read. -/
  getter : Option Visibility := none
  /-- Who may write it, if it can be written. -/
  setter : Option Visibility := none
  attributes : List Attribute := []
  deriving DecidableEq, Repr, Inhabited

structure Field where
  name : String := ""
  typeName : String := ""
  isStatic : Bool := false
  visibility : Visibility := .everywhere
  deriving DecidableEq, Repr, Inhabited

structure Parameter where
  name : String := ""
  typeName : String := ""
  deriving DecidableEq, Repr, Inhabited

/-- A method or a constructor. -/
structure Method where
  name : String := ""
  isStatic : Bool := false
  visibility : Visibility := .everywhere
  /-- The type of its result, if it has one. -/
  returnType : Option String := none
  parameters : List Parameter := []
  deriving DecidableEq, Repr, Inhabited

structure Event where
  name : String := ""
  handlerType : String := ""
  isStatic : Bool := false
  visibility : Visibility := .everywhere
  deriving DecidableEq, Repr, Inhabited

/-- An embedded resource, with its content or with the file that holds it. -/
structure Resource where
  name : String := ""
  data : Option (List UInt8) := none
  file : Option Files.Path := none
  deriving DecidableEq, Repr, Inhabited

/-- What a session notes with a type. -/
structure Membership where
  /-- The name of the type with its namespace. -/
  fullName : String := ""
  /-- The name of its library. -/
  library : String := ""
  handle : Handle := {}
  deriving DecidableEq, Repr, Inhabited

structure TypeDecl where
  namespaceName : String := ""
  name : String := ""
  visibility : Visibility := .everywhere
  isEnum : Bool := false
  isStatic : Bool := false
  isInterface : Bool := false
  isAbstract : Bool := false
  isGeneric : Bool := false
  baseType : Option String := none
  enumValues : List String := []
  attributes : List Attribute := []
  properties : List Property := []
  fields : List Field := []
  methods : List Method := []
  constructors : List Method := []
  events : List Event := []
  /-- What a session notes with the type; it is not part of the written form. -/
  membership : Membership := {}
  deriving DecidableEq, Repr, Inhabited

/-- The name of a type with its namespace. -/
def TypeDecl.fullName (type : TypeDecl) : String :=
  if type.namespaceName.isEmpty then type.name else type.namespaceName ++ "." ++ type.name

/-- The attribute by which a library grants its internals to another. -/
def internalsVisibleTo : String := "System.Runtime.CompilerServices.InternalsVisibleToAttribute"

/-- The attribute by which a library gives a namespace an alias for markup. -/
def xmlnsDefinition : String := "Avalonia.Metadata.XmlnsDefinitionAttribute"

end Library

/-- The description of a library. -/
structure Library where
  name : String := ""
  /-- Its name with version and public key; empty if it is the name alone. -/
  identity : String := ""
  attributes : List Library.Attribute := []
  resources : List Library.Resource := []
  types : List Library.TypeDecl := []
  /-- The folder that resource files are looked for in; it is not part of the written form. -/
  folder : Option Files.Path := none
  deriving DecidableEq, Repr, Inhabited

/-- The declarations by which a library grants its internals to others. -/
def Library.grants (library : Library) : List String :=
  (library.attributes.filter (·.typeName = internalsVisibleTo)).filterMap (·.arguments[0]?)

end XamlAssist
