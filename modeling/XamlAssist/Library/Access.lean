import XamlAssist.Library.Basic
import XamlAssist.Text.Blank
import XamlAssist.Text.Parts

/-!
# Access to the internals of a library

Which types and members of a library the target library may use. A library opens its internals to
others by declarations that name the other library and may demand a public key.
-/

namespace XamlAssist.Library

open Text

/-- The public key in an identity, in lower case. -/
def publicKey? (identity : String) : Option (List Char) := do
  let behind ← behindFirst? "publickey=".toList (lowerAscii identity.toList)
  let key := trim (before ',' behind)
  if key.isEmpty then none else some key

/-- Whether a declaration grants the internals to the target: it starts with the target's name, and
if it has a public key, the key in the target's identity ends with that, up to case. -/
def grantsInternals (declaration target identity : String) : Bool :=
  target.toList.isPrefixOf declaration.toList &&
    match publicKey? declaration with
    | none => true
    | some required => (publicKey? identity).any (required.isSuffixOf ·)

/-- How far the target sees into a library. -/
inductive Access
  | publicOnly
  | internals
  deriving DecidableEq, Repr

namespace Access

/-- The access of the target, which has the given identity, to a library. A library has full
access to itself; without a target only what is public is seen. -/
def toLibrary (library : Library) (target identity : Option String) : Access :=
  match target with
  | none => publicOnly
  | some target =>
      if library.name = target then internals
      else if library.grants.any fun declaration =>
        grantsInternals declaration target (identity.getD target) then internals
      else publicOnly

/-- Whether something of the given visibility is seen. -/
def allows (access : Access) (visibility : Visibility) : Bool :=
  visibility.isPublic || (access = internals && visibility.isInternalOrPublic)

/-- Whether a type is offered in markup. Interfaces, types made by the compiler and abstract types
that are not static are not. -/
def selects (access : Access) (type : TypeDecl) : Bool :=
  !type.isInterface && type.name.toList.head? ≠ some '<' && (!type.isAbstract || type.isStatic) &&
    access.allows type.visibility

end Access

end XamlAssist.Library
