import XamlAssist.Ordered
import XamlAssist.Resource.Xml
import XamlAssist.Text.Blank

/-!
# The index of a library's embedded files

A library embeds its files in one resource: the length of the index in four bytes, the index, and
the files one after the other. The index is a version number and either an XML document (version 1)
or a count of entries and the entries in binary form (version 2). One of the files may be an XML
document that tells for each class which markup file it was made from.

Numbers are little-endian.
-/

namespace XamlAssist.Resource

open Text

/-- Where a file lies, relative to the end of the index. -/
structure Entry where
  path : String
  offset : Nat
  size : Nat
  deriving DecidableEq, Repr

/-- The files of a library and the markup file of each class. -/
structure Index where
  entries : List Entry := []
  /-- The markup path of each class, in the order in which the classes were first named. -/
  classes : OrderedMap String String := {}
  deriving DecidableEq, Repr

/-- Why an index cannot be read. -/
inductive IndexError
  /-- The bytes end before a length that they declare; `place` is their number. -/
  | truncated (place : Nat)
  | negativeLength (length : Int)
  | unsupportedVersion (version : Int)
  /-- A path is no UTF-8 text. -/
  | invalidText
  /-- An XML document cannot be read. -/
  | malformedXml
  /-- A field of an XML document that should be a number is none. -/
  | invalidNumber (text : String)
  deriving DecidableEq, Repr

def IndexError.message : IndexError → String
  | .truncated place => "Resource index truncated at byte " ++ decimalText place
  | .negativeLength length => "Negative length " ++ integerText length ++ " in resource index"
  | .unsupportedVersion version =>
      "Unsupported resource index version: " ++ integerText version
  | .invalidText => "Invalid UTF-8 in resource path"
  | .malformedXml => "XML error"
  | .invalidNumber text => "XML error: invalid number '" ++ text ++ "'"

/-- The name of the resource that holds the embedded files. -/
def resourceName : String := "!AvaloniaResources"

/-- The path of the file that tells the markup file of each class. -/
def classesPath : String := "/!AvaloniaResourceXamlInfo"

namespace Index

/-- The paths of the files, without the one that tells the markup files of classes. -/
def paths (index : Index) : List String :=
  (index.entries.map Entry.path).filter (· ≠ classesPath)

/-- The first entry with the given path. -/
def find? (index : Index) (path : String) : Option Entry :=
  index.entries.find? (·.path = path)

end Index

/-! ### Binary parts -/

/-- Bytes that are read from the left. -/
structure Cursor where
  /-- The number of all bytes. -/
  size : Nat
  rest : List UInt8
  deriving DecidableEq, Repr

namespace Cursor

def ofBytes (bytes : List UInt8) : Cursor := ⟨bytes.length, bytes⟩

/-- The number of bytes read. -/
def pos (cursor : Cursor) : Nat := cursor.size - cursor.rest.length

/-- Reads `count` bytes. -/
def take (cursor : Cursor) (count : Nat) : Except IndexError (List UInt8 × Cursor) :=
  if count ≤ cursor.rest.length then
    .ok (cursor.rest.take count, { cursor with rest := cursor.rest.drop count })
  else .error (.truncated cursor.size)

/-- The number that bytes stand for, the lowest first. -/
def littleEndian : List UInt8 → Nat
  | [] => 0
  | b :: rest => b.toNat + 256 * littleEndian rest

/-- Reads a signed number of four bytes. -/
def readInteger (cursor : Cursor) : Except IndexError (Int × Cursor) := do
  let (bytes, cursor) ← cursor.take 4
  return (Int.bmod (littleEndian bytes) 0x100000000, cursor)

/-- Reads a number of four bytes that must not be negative. -/
def readLength (cursor : Cursor) : Except IndexError (Nat × Cursor) := do
  let (value, cursor) ← cursor.readInteger
  if value < 0 then throw (.negativeLength value)
  return (value.toNat, cursor)

/-- Reads a number with seven bits in each byte, the lowest first, of at most `count` bytes. All
but the last have the high bit set. -/
def readVarint : Nat → Cursor → Except IndexError (Nat × Cursor)
  | 0, cursor => .error (.truncated cursor.pos)
  | count + 1, cursor =>
      match cursor.rest with
      | [] => .error (.truncated cursor.size)
      | b :: rest => do
          let cursor := { cursor with rest }
          if b < 0x80 then return (b.toNat, cursor)
          let (high, cursor) ← readVarint count cursor
          return (b.toNat - 0x80 + 0x80 * high, cursor)

/-- Reads a text with its length before it. -/
def readText (cursor : Cursor) : Except IndexError (String × Cursor) := do
  let (length, cursor) ← readVarint 5 cursor
  let (bytes, cursor) ← cursor.take length
  match String.fromUTF8? ⟨bytes.toArray⟩ with
  | none => throw .invalidText
  | some text => return (text, cursor)

/-- Reads an entry. -/
def readEntry (cursor : Cursor) : Except IndexError (Entry × Cursor) := do
  let (path, cursor) ← cursor.readText
  let (offset, cursor) ← cursor.readLength
  let (size, cursor) ← cursor.readLength
  return ({ path, offset, size }, cursor)

/-- Reads `count` entries behind those in `entries`, which has the latest first. -/
def readEntries (entries : List Entry) : Nat → Cursor → Except IndexError (List Entry)
  | 0, _ => .ok entries.reverse
  | count + 1, cursor => do
      let (entry, cursor) ← cursor.readEntry
      readEntries (entry :: entries) count cursor

end Cursor

/-! ### XML parts -/

/-- The texts of the fields of a record, the latest first. -/
abbrev Fields := List (List UInt8 × String)

/-- The records read so far, the latest first, the record that is open and the name of the field
that is open in it. -/
structure RecordState where
  records : List Fields := []
  current : Option Fields := none
  field : Option (List UInt8) := none

/-- Takes one event of a document whose records are the elements named `record`. -/
def RecordState.step (record : List UInt8) (state : RecordState) :
    Xml.Event → Option RecordState
  | .start name =>
      let name := Xml.localName name
      if name = record then some { state with current := some [] }
      else if state.current.isSome then some { state with field := some name }
      else some state
  | .text run =>
      match state.current, state.field with
      | some fields, some name => do
          some { state with current := some ((name, ← Xml.textOf? run) :: fields) }
      | _, _ => some state
  | .stop name =>
      if Xml.localName name = record then
        match state.current with
        | some fields => some { records := fields :: state.records }
        | none => some { state with field := none }
      else some { state with field := none }

/-- The records of a document. -/
def records (document : List UInt8) (record : String) : Except IndexError (List Fields) :=
  let read := do
    let events ← Xml.events? document
    let state ← events.foldlM (RecordState.step (Xml.ascii record)) {}
    some state.records.reverse
  match read with
  | some records => .ok records
  | none => .error .malformedXml

/-- The text of a field of a record. -/
def field? (fields : Fields) (name : String) : Option String := fields.lookup (Xml.ascii name)

/-- The number that a text stands for, if it fits into 64 bits with a sign. -/
def integer? (text : List Char) : Option Int :=
  let negative := text.head? = some '-'
  let digits := if negative || text.head? = some '+' then text.drop 1 else text
  if digits.isEmpty || !digits.all Char.isDigit then none
  else
    let value : Int := if negative then -(ofDecimal digits : Int) else ofDecimal digits
    if -0x8000000000000000 ≤ value && value < 0x8000000000000000 then some value else none

/-- The number in a field, which is 0 if the field is missing and must fit into 32 bits without a
sign. -/
def numberField (text : Option String) : Except IndexError Nat :=
  let digits := (text.map fun text => trim text.toList).getD ['0']
  match integer? digits with
  | none => .error (.invalidNumber (String.ofList digits))
  | some value =>
      if 0 ≤ value && value < 0x100000000 then .ok value.toNat
      else .error (.negativeLength (Int.bmod value 0x100000000))

/-- The entry that a record describes; there is none without a path. -/
def entryOfFields (fields : Fields) : Except IndexError (Option Entry) :=
  match field? fields "Path" with
  | none => .ok none
  | some path => do
      let offset ← numberField (field? fields "Offset")
      let size ← numberField (field? fields "Size")
      return some { path, offset, size }

/-- The entries of an index in XML form. -/
def readXmlEntries (document : List UInt8) : Except IndexError (List Entry) := do
  let records ← records document "AvaloniaResourcesIndexEntry"
  return (← records.mapM entryOfFields).filterMap id

/-- Adds the class of a record, if it has a name and a path. -/
def addClass (classes : OrderedMap String String) (fields : Fields) : OrderedMap String String :=
  match field? fields "Key", field? fields "Value" with
  | some name, some path => classes.insert name path
  | _, _ => classes

/-- The classes of a document that tells their markup files. -/
def readClasses (document : List UInt8) : Except IndexError (OrderedMap String String) := do
  return (← records document "KeyValueOfstringstring").foldl addClass {}

/-! ### The whole -/

/-- The entries of an index. -/
def readEntries (index : List UInt8) : Except IndexError (List Entry) := do
  let (version, cursor) ← (Cursor.ofBytes index).readInteger
  if version = 1 then readXmlEntries cursor.rest
  else if version = 2 then
    let (count, cursor) ← cursor.readLength
    cursor.readEntries [] count
  else throw (.unsupportedVersion version)

/-- The bytes of a file in the data behind an index. -/
def contentOf (data : Cursor) (entry : Entry) : Except IndexError (List UInt8) :=
  if entry.offset + entry.size ≤ data.rest.length then
    .ok ((data.rest.drop entry.offset).take entry.size)
  else .error (.truncated data.size)

/-- Reads the resource that holds the embedded files. -/
def Index.ofBytes (data : List UInt8) : Except IndexError Index := do
  let (length, cursor) ← (Cursor.ofBytes data).readLength
  let (index, files) ← cursor.take length
  let entries ← Resource.readEntries index
  match entries.find? (·.path = classesPath) with
  | none => return { entries }
  | some entry => return { entries, classes := ← readClasses (← contentOf files entry) }

end XamlAssist.Resource
