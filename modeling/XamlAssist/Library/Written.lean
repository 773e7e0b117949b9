import XamlAssist.Json.Printer
import XamlAssist.Library.Basic

/-!
# The written form of a library's description

A description is written as a JSON object. When it is read, every field may be missing, fields that
are not known are passed over, a known field must not occur twice, and a record may also be given
as an array of its fields in order.
-/

namespace XamlAssist.Library

open Json

/-! ### Reading -/

/-- The text of a string value. -/
def readText? : Value → Option String
  | .string value => (textOf? value).map String.ofList
  | _ => none

def readBool? : Value → Option Bool
  | .bool value => some value
  | _ => none

/-- A whole number from 0 to 255. -/
def readByte? : Value → Option UInt8
  | .number value =>
      if value.whole && !value.negative && value.integer < 256 then some value.integer.toUInt8
      else none
  | _ => none

def readList? {α : Type} (read : Value → Option α) : Value → Option (List α)
  | .array items => items.mapM read
  | _ => none

/-- A value that may be null. -/
def readOption? {α : Type} (read : Value → Option α) : Value → Option (Option α)
  | .null => some none
  | value => (read value).map some

/-- A field of a record, which has a value of its own if it is missing. -/
def readField? {α : Type} (missing : α) (read : Value → Option α) : Option Value → Option α
  | none => some missing
  | some value => read value

/-- The value of the field `name`, if it is there; no result if it is there twice. -/
def uniqueField? (name : String) (fields : List (String × Value)) : Option (Option Value) :=
  match fields.filter (·.1 = name) with
  | [] => some none
  | [(_, value)] => some (some value)
  | _ => none

/-- The known fields of a record in their order, each if it is there. -/
def recordFields? (names : List String) : Value → Option (List (Option Value))
  | .object fields => do
      let fields ← fields.mapM fun (name, value) => do
        some (String.ofList (← textOf? name), value)
      names.mapM fun name => uniqueField? name fields
  | .array items =>
      if items.length ≤ names.length then
        some (items.map some ++ List.replicate (names.length - items.length) none)
      else none
  | _ => none

/-- A visibility: its word, or an object with the word as its only name and null as its value. -/
def readVisibility? : Value → Option Visibility
  | .object [(word, .null)] => do Visibility.ofWord? (String.ofList (← textOf? word))
  | value => do Visibility.ofWord? (← readText? value)

def Attribute.fieldNames : List String := ["type_full_name", "arguments"]

def Attribute.read? (value : Value) : Option Attribute := do
  let [typeName, arguments] ← recordFields? fieldNames value | none
  some
    { typeName := ← readField? "" readText? typeName
      arguments := ← readField? [] (readList? readText?) arguments }

def Property.fieldNames : List String :=
  ["name", "type_name", "is_static", "getter", "setter", "custom_attributes"]

def Property.read? (value : Value) : Option Property := do
  let [name, typeName, isStatic, getter, setter, attributes] ← recordFields? fieldNames value
    | none
  some
    { name := ← readField? "" readText? name
      typeName := ← readField? "" readText? typeName
      isStatic := ← readField? false readBool? isStatic
      getter := ← readField? none (readOption? readVisibility?) getter
      setter := ← readField? none (readOption? readVisibility?) setter
      attributes := ← readField? [] (readList? Attribute.read?) attributes }

def Field.fieldNames : List String := ["name", "type_name", "is_static", "visibility"]

def Field.read? (value : Value) : Option Field := do
  let [name, typeName, isStatic, visibility] ← recordFields? fieldNames value | none
  some
    { name := ← readField? "" readText? name
      typeName := ← readField? "" readText? typeName
      isStatic := ← readField? false readBool? isStatic
      visibility := ← readField? .everywhere readVisibility? visibility }

def Parameter.fieldNames : List String := ["name", "type_name"]

def Parameter.read? (value : Value) : Option Parameter := do
  let [name, typeName] ← recordFields? fieldNames value | none
  some
    { name := ← readField? "" readText? name
      typeName := ← readField? "" readText? typeName }

def Method.fieldNames : List String :=
  ["name", "is_static", "visibility", "return_type", "parameters"]

def Method.read? (value : Value) : Option Method := do
  let [name, isStatic, visibility, returnType, parameters] ← recordFields? fieldNames value
    | none
  some
    { name := ← readField? "" readText? name
      isStatic := ← readField? false readBool? isStatic
      visibility := ← readField? .everywhere readVisibility? visibility
      returnType := ← readField? none (readOption? readText?) returnType
      parameters := ← readField? [] (readList? Parameter.read?) parameters }

def Event.fieldNames : List String := ["name", "handler_type", "is_static", "visibility"]

def Event.read? (value : Value) : Option Event := do
  let [name, handlerType, isStatic, visibility] ← recordFields? fieldNames value | none
  some
    { name := ← readField? "" readText? name
      handlerType := ← readField? "" readText? handlerType
      isStatic := ← readField? false readBool? isStatic
      visibility := ← readField? .everywhere readVisibility? visibility }

def Resource.fieldNames : List String := ["name", "data", "file"]

def Resource.read? (value : Value) : Option Resource := do
  let [name, data, file] ← recordFields? fieldNames value | none
  some
    { name := ← readField? "" readText? name
      data := ← readField? none (readOption? (readList? readByte?)) data
      file := (← readField? none (readOption? readText?) file).map Files.Path.mk }

def TypeDecl.fieldNames : List String :=
  ["namespace", "name", "visibility", "is_enum", "is_static", "is_interface", "is_abstract",
   "is_generic", "base_type", "enum_values", "custom_attributes", "properties", "fields",
   "methods", "constructors", "events"]

def TypeDecl.read? (value : Value) : Option TypeDecl := do
  let [namespaceName, name, visibility, isEnum, isStatic, isInterface, isAbstract, isGeneric,
    baseType, enumValues, attributes, properties, fields, methods, constructors, events] ←
    recordFields? fieldNames value | none
  some
    { namespaceName := ← readField? "" readText? namespaceName
      name := ← readField? "" readText? name
      visibility := ← readField? .everywhere readVisibility? visibility
      isEnum := ← readField? false readBool? isEnum
      isStatic := ← readField? false readBool? isStatic
      isInterface := ← readField? false readBool? isInterface
      isAbstract := ← readField? false readBool? isAbstract
      isGeneric := ← readField? false readBool? isGeneric
      baseType := ← readField? none (readOption? readText?) baseType
      enumValues := ← readField? [] (readList? readText?) enumValues
      attributes := ← readField? [] (readList? Attribute.read?) attributes
      properties := ← readField? [] (readList? Property.read?) properties
      fields := ← readField? [] (readList? Field.read?) fields
      methods := ← readField? [] (readList? Method.read?) methods
      constructors := ← readField? [] (readList? Method.read?) constructors
      events := ← readField? [] (readList? Event.read?) events }

def fieldNames : List String := ["name", "identity", "custom_attributes", "resources", "types"]

/-- Reads the description of a library from a JSON value. -/
def read? (value : Value) : Option Library := do
  let [name, identity, attributes, resources, types] ← recordFields? fieldNames value | none
  some
    { name := ← readField? "" readText? name
      identity := ← readField? "" readText? identity
      attributes := ← readField? [] (readList? Attribute.read?) attributes
      resources := ← readField? [] (readList? Resource.read?) resources
      types := ← readField? [] (readList? TypeDecl.read?) types }

/-- Reads the description of a library, the resource files of which are in `folder`. -/
def ofText? (text : String) (folder : Option Files.Path) : Option Library := do
  some { ← read? (← Value.ofText? text.toList) with folder }

/-! ### Writing -/

def writeString (text : String) : Value := .string (writeText text.toList)

def writeOption {α : Type} (write : α → Value) : Option α → Value
  | none => .null
  | some a => write a

def writeList {α : Type} (write : α → Value) (items : List α) : Value := .array (items.map write)

def writeByte (byte : UInt8) : Value := .number { integer := byte.toNat }

/-- A record with its fields by name. -/
def writeRecord (names : List String) (values : List Value) : Value :=
  .object ((names.map fun name => writeText name.toList).zip values)

def writeVisibility (visibility : Visibility) : Value := writeString visibility.word

def Attribute.write (a : Attribute) : Value :=
  writeRecord fieldNames [writeString a.typeName, writeList writeString a.arguments]

def Property.write (property : Property) : Value :=
  writeRecord fieldNames
    [writeString property.name, writeString property.typeName, .bool property.isStatic,
     writeOption writeVisibility property.getter, writeOption writeVisibility property.setter,
     writeList Attribute.write property.attributes]

def Field.write (field : Field) : Value :=
  writeRecord fieldNames
    [writeString field.name, writeString field.typeName, .bool field.isStatic,
     writeVisibility field.visibility]

def Parameter.write (parameter : Parameter) : Value :=
  writeRecord fieldNames [writeString parameter.name, writeString parameter.typeName]

def Method.write (method : Method) : Value :=
  writeRecord fieldNames
    [writeString method.name, .bool method.isStatic, writeVisibility method.visibility,
     writeOption writeString method.returnType, writeList Parameter.write method.parameters]

def Event.write (event : Event) : Value :=
  writeRecord fieldNames
    [writeString event.name, writeString event.handlerType, .bool event.isStatic,
     writeVisibility event.visibility]

def Resource.write (resource : Resource) : Value :=
  writeRecord fieldNames
    [writeString resource.name, writeOption (writeList writeByte) resource.data,
     writeOption (fun path => writeString path.text) resource.file]

def TypeDecl.write (type : TypeDecl) : Value :=
  writeRecord fieldNames
    [writeString type.namespaceName, writeString type.name, writeVisibility type.visibility,
     .bool type.isEnum, .bool type.isStatic, .bool type.isInterface, .bool type.isAbstract,
     .bool type.isGeneric, writeOption writeString type.baseType,
     writeList writeString type.enumValues, writeList Attribute.write type.attributes,
     writeList Property.write type.properties, writeList Field.write type.fields,
     writeList Method.write type.methods, writeList Method.write type.constructors,
     writeList Event.write type.events]

/-- The JSON value of a description. -/
def write (library : Library) : Value :=
  writeRecord fieldNames
    [writeString library.name, writeString library.identity,
     writeList Attribute.write library.attributes, writeList Resource.write library.resources,
     writeList TypeDecl.write library.types]

/-- The text of a description. -/
def toText (library : Library) : String := String.ofList library.write.toText

end XamlAssist.Library
