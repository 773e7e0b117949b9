import XamlAssist.Files.Tree
import XamlAssist.Library.Written

/-!
# Sessions

A session is a list of libraries that are looked at together, one of which is the target: the
library whose markup is edited. Within a session each type has its full name and a handle.
-/

namespace XamlAssist

open Files

/-- Why a library or one of its resources cannot be opened. -/
inductive OpenError
  | file (path : Path) (failure : Failure)
  /-- The file holds no description of a library. -/
  | description (path : Path)
  /-- The resource has neither content nor a file. -/
  | resource (library name : String)
  deriving DecidableEq, Repr

def OpenError.message : OpenError → String
  | .file path failure => "IO error on " ++ path.text ++ ": " ++ failure.message
  | .description path => "Invalid library descriptor " ++ path.text
  | .resource library name => "Missing resource '" ++ name ++ "' in library " ++ library

/-- A type of a session: a description in which the session has noted the full name. -/
structure SessionType where
  decl : Library.TypeDecl
  fullName_eq : decl.membership.fullName = decl.fullName
  deriving DecidableEq, Repr

namespace SessionType

def fullName (type : SessionType) : String := type.decl.membership.fullName

/-- The name of its library. -/
def library (type : SessionType) : String := type.decl.membership.library

def handle (type : SessionType) : Handle := type.decl.membership.handle

/-- The full name with the name of the library. -/
def qualifiedName (type : SessionType) : String := type.fullName ++ ", " ++ type.library

end SessionType

/-- A library of a session. -/
structure SessionLibrary where
  library : Library
  types : List SessionType
  deriving DecidableEq, Repr

/-- What opening a resource gives. -/
inductive ResourceContent
  | bytes (content : Bytes)
  /-- The resource is a folder: it can be opened but not read. -/
  | unreadable

namespace SessionLibrary

/-- A type as a part of the library at a place of a session. A name with a number of parameters is
that of a generic type. -/
def ofDecl (library : String) (handle : Handle) (decl : Library.TypeDecl) : SessionType :=
  { decl :=
      { decl with
        isGeneric := decl.isGeneric || decl.name.toList.contains '\x60'
        membership := { fullName := decl.fullName, library, handle } }
    fullName_eq := rfl }

/-- A library at a place of a session. An identity that is not given is the name. -/
def ofLibrary (place : Nat) (library : Library) : SessionLibrary :=
  let identity := if library.identity.isEmpty then library.name else library.identity
  { library := { library with identity }
    types := library.types.mapIdx fun index decl => ofDecl library.name ⟨place, index⟩ decl }

def name (library : SessionLibrary) : String := library.library.name

/-- Opens the first resource with the given name, if there is one. -/
def openResource (library : SessionLibrary) (files : Tree) (name : String) :
    Except OpenError (Option ResourceContent) :=
  match library.library.resources.find? (·.name = name) with
  | none => .ok none
  | some { data := some data, .. } => .ok (some (.bytes data))
  | some { data := none, file := none, .. } => .error (.resource library.name name)
  | some { data := none, file := some file, .. } =>
      let path :=
        match library.library.folder with
        | some folder => folder.join file
        | none => file
      match files.find path with
      | .error failure => .error (.file path failure)
      | .ok (.file content) => .ok (some (.bytes content))
      | .ok _ => .ok (some .unreadable)

end SessionLibrary

structure Session where
  /-- The name of the target library. -/
  target : Option String := none
  libraries : List SessionLibrary := []
  /-- The files that resources are read from. -/
  files : Tree := {}

namespace Session

/-- The session of the given libraries with the given target. -/
def withTarget (target : Option String) (libraries : List Library) (files : Tree) : Session :=
  { target, libraries := libraries.mapIdx SessionLibrary.ofLibrary, files }

/-- The session of the given libraries, the first of which is the target. -/
def ofLibraries (libraries : List Library) (files : Tree) : Session :=
  withTarget (libraries.head?.map Library.name) libraries files

/-- All types in order. -/
def types (session : Session) : List SessionType := session.libraries.flatMap SessionLibrary.types

end Session

/-- Reads the description of a library from a file. Its resource files are next to it. -/
def Library.load (files : Tree) (path : Path) : Except OpenError Library :=
  match files.readText path with
  | .error failure => .error (.file path failure)
  | .ok text =>
      match Library.ofText? text path.parent? with
      | none => .error (.description path)
      | some library => .ok library

/-- Opens the libraries at the given paths. Those that cannot be opened are left out. The target is
the library at the first path or, if that cannot be opened, the one named like the file. -/
def Session.ofPaths (files : Tree) (paths : List Path) : Session :=
  let opened := paths.map fun path => (Library.load files path).toOption
  let target :=
    match opened.head? with
    | some (some library) => some library.name
    | _ => paths.head?.bind Path.fileStem?
  withTarget target (opened.filterMap id) files

end XamlAssist
