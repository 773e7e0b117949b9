import XamlAssist.Conversion.Settings
import XamlAssist.GenericName
import XamlAssist.Library.Access
import XamlAssist.Session

/-!
# What a conversion looks at

The settings and the session of a conversion: which type a name stands for, how far the target sees
into each library, and the base types of a type.
-/

namespace XamlAssist.Conversion

open Library

structure Scope where
  settings : Settings
  session : Session

namespace Scope

/-- The first type of the session with the given full name. -/
def type? (scope : Scope) (fullName : String) : Option SessionType :=
  scope.session.types.find? (·.fullName = fullName)

/-- The identity of the first library that is named like the target. -/
def targetIdentity (scope : Scope) : Option String := do
  let target ← scope.session.target
  let library ← scope.session.libraries.find? (·.name = target)
  return library.library.identity

/-- How far the target sees into a library. -/
def accessTo (scope : Scope) (library : SessionLibrary) : Access :=
  Access.toLibrary library.library scope.session.target scope.targetIdentity

/-- How far the target sees into the library with the given name; the last one of that name
counts. -/
def accessOf (scope : Scope) (name : String) : Access :=
  match scope.session.libraries.reverse.find? (·.name = name) with
  | some library => scope.accessTo library
  | none => .publicOnly

/-- The type of the session that a type is derived from. -/
def base? (scope : Scope) (type : SessionType) : Option SessionType := do
  scope.type? (GenericName.definitionName (← type.decl.baseType))

/-- A type and those that it is derived from, at most `room` of them, up to one that is in
`visited`. -/
def chainFrom (scope : Scope) : Nat → List Handle → SessionType → List SessionType
  | 0, _, _ => []
  | room + 1, visited, type =>
      if visited.contains type.handle then []
      else
        type ::
          match scope.base? type with
          | none => []
          | some base => scope.chainFrom room (type.handle :: visited) base

/-- A type and those that it is derived from, the nearest first and each once. -/
def baseChain (scope : Scope) (type : SessionType) : List SessionType :=
  scope.chainFrom scope.settings.maxBaseDepth [] type

/-- The types of a library that are offered in markup. -/
def offered (scope : Scope) (library : SessionLibrary) : List SessionType :=
  library.types.filter fun type => (scope.accessTo library).selects type.decl

/-- The types that are offered in markup. -/
def allOffered (scope : Scope) : List SessionType :=
  scope.session.libraries.flatMap scope.offered

end Scope

end XamlAssist.Conversion
