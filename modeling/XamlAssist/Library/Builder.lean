import XamlAssist.Library.Basic

/-!
# Putting descriptions together

Short forms for the usual kinds of members and types, and functions that add one thing to a
description.
-/

namespace XamlAssist.Library

namespace Property

/-- A public property that can be read and written. -/
def readWrite (name typeName : String) : Property :=
  { name, typeName, getter := some .everywhere, setter := some .everywhere }

/-- A public static property that can be read. -/
def staticRead (name typeName : String) : Property :=
  { readWrite name typeName with isStatic := true, setter := none }

def readOnly (property : Property) : Property := { property with setter := none }

def withGetter (property : Property) (visibility : Option Visibility) : Property :=
  { property with getter := visibility }

def withSetter (property : Property) (visibility : Option Visibility) : Property :=
  { property with setter := visibility }

def addAttribute (property : Property) (added : Attribute) : Property :=
  { property with attributes := property.attributes ++ [added] }

end Property

/-- A public static field, as it backs a property or an event. -/
def Field.publicStatic (name typeName : String) : Field := { name, typeName, isStatic := true }

namespace Method

def publicStatic (name : String) (parameters : List Parameter) (returnType : Option String) :
    Method :=
  { name, isStatic := true, returnType, parameters }

def publicInstance (name : String) (parameters : List Parameter) (returnType : Option String) :
    Method :=
  { name, returnType, parameters }

/-- A public constructor. -/
def publicConstructor (parameters : List Parameter) : Method :=
  publicInstance ".ctor" parameters none

end Method

namespace TypeDecl

/-- A public class. -/
def publicClass (namespaceName name : String) : TypeDecl := { namespaceName, name }

/-- A public enumeration with its values in order. -/
def enumeration (namespaceName name : String) (values : List String) : TypeDecl :=
  { namespaceName, name, isEnum := true, enumValues := values, baseType := some "System.Enum" }

def withBase (type : TypeDecl) (base : String) : TypeDecl := { type with baseType := some base }

def withVisibility (type : TypeDecl) (visibility : Visibility) : TypeDecl :=
  { type with visibility }

def asAbstract (type : TypeDecl) : TypeDecl := { type with isAbstract := true }

def asInterface (type : TypeDecl) : TypeDecl :=
  { type with isInterface := true, isAbstract := true }

/-- A static class is abstract too. -/
def asStatic (type : TypeDecl) : TypeDecl := { type with isStatic := true, isAbstract := true }

def addAttribute (type : TypeDecl) (added : Attribute) : TypeDecl :=
  { type with attributes := type.attributes ++ [added] }

def addProperty (type : TypeDecl) (property : Property) : TypeDecl :=
  { type with properties := type.properties ++ [property] }

def addField (type : TypeDecl) (field : Field) : TypeDecl :=
  { type with fields := type.fields ++ [field] }

def addMethod (type : TypeDecl) (method : Method) : TypeDecl :=
  { type with methods := type.methods ++ [method] }

def addConstructor (type : TypeDecl) (parameters : List Parameter) : TypeDecl :=
  { type with constructors := type.constructors ++ [.publicConstructor parameters] }

/-- Adds a public event. -/
def addEvent (type : TypeDecl) (name handlerType : String) : TypeDecl :=
  { type with events := type.events ++ [{ name, handlerType }] }

end TypeDecl

/-- A library without anything in it. -/
def named (name : String) : Library := { name }

def withIdentity (library : Library) (identity : String) : Library := { library with identity }

def addAttribute (library : Library) (added : Attribute) : Library :=
  { library with attributes := library.attributes ++ [added] }

/-- Grants the internals to another library, which may be named with its public key. -/
def grantInternals (library : Library) (grantee : String) : Library :=
  library.addAttribute ⟨internalsVisibleTo, [grantee]⟩

/-- Gives a namespace an alias for markup. -/
def addAlias (library : Library) (uri namespaceName : String) : Library :=
  library.addAttribute ⟨xmlnsDefinition, [uri, namespaceName]⟩

def addResource (library : Library) (name : String) (data : List UInt8) : Library :=
  { library with resources := library.resources ++ [{ name, data := some data }] }

def addType (library : Library) (type : TypeDecl) : Library :=
  { library with types := library.types ++ [type] }

end XamlAssist.Library
