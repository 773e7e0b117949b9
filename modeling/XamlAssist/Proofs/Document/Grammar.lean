import XamlAssist.Document.Reading

/-!
# Well-formed documents

The grammar of documents in which every element is closed: texts, comments, character data,
processing instructions, declarations, empty elements, and elements with their content. The parts of
a document carry the conditions that they have to meet, so a value of `Markup` is a well-formed
document and `Markup.chars` is its text.
-/

namespace XamlAssist.Document

open Text

/-- A possibly empty run of blanks. -/
structure Blanks where
  chars : List Char
  blank : ∀ c ∈ chars, isMarkupBlank c = true

/-- A character that may stand in a name: no blank, bracket, slash, equals sign or quote. -/
def isNameChar (c : Char) : Bool :=
  !isMarkupBlank c && c != '<' && c != '>' && c != '/' && c != '=' && c != '"' && c != '\x27'

/-- The name of an element, an attribute, an instruction or a declaration. -/
structure Name where
  first : Char
  rest : List Char
  first_plain : isNameChar first = true ∧ first ≠ '!' ∧ first ≠ '?'
  rest_plain : ∀ c ∈ rest, isNameChar c = true

def Name.chars (name : Name) : List Char := name.first :: name.rest

/-- An attribute with the blanks before it. Its value may hold anything but the quote that it
stands in. -/
structure Attribute where
  before : Blanks
  before_ne : before.chars ≠ []
  name : Name
  afterName : Blanks
  beforeValue : Blanks
  quote : Char
  quote_ok : quote = '"' ∨ quote = '\x27'
  value : List Char
  value_ok : quote ∉ value

namespace Attribute

/-- The attribute from its `=` to the closing quote. -/
def assigned (attr : Attribute) : List Char :=
  '=' :: (attr.beforeValue.chars ++ attr.quote :: (attr.value ++ [attr.quote]))

def chars (attr : Attribute) : List Char :=
  attr.before.chars ++ (attr.name.chars ++ (attr.afterName.chars ++ attr.assigned))

end Attribute

/-- What stands in a tag: a name, attributes and blanks. -/
structure TagBody where
  name : Name
  attributes : List Attribute
  trailing : Blanks

namespace TagBody

def chars (body : TagBody) : List Char :=
  body.name.chars ++ (body.attributes.flatMap Attribute.chars ++ body.trailing.chars)

/-- The start tag of an element with content. -/
def startTag (body : TagBody) : List Char := '<' :: (body.chars ++ ['>'])

/-- The closing tag of the element. -/
def closingTag (body : TagBody) (blanks : Blanks) : List Char :=
  '<' :: '/' :: (body.name.chars ++ (blanks.chars ++ ['>']))

end TagBody

/-- A character that may stand in a declaration behind its name. -/
def isDeclarationChar (c : Char) : Bool := c != '<' && c != '>' && c != '=' && c != '/'

/-- A word of a declaration with the blanks before it. -/
structure Word where
  before : Blanks
  before_ne : before.chars ≠ []
  letters : List Char
  plain : ∀ c ∈ letters, isDeclarationChar c = true

def Word.chars (word : Word) : List Char := word.before.chars ++ word.letters

/-- A declaration, which must not begin like a comment or like character data. -/
structure Declaration where
  name : Name
  words : List Word
  not_comment : ¬ ['-', '-'] <+: name.chars
  not_cdata : ¬ ['[', 'C', 'D', 'A', 'T', 'A', '['] <+: name.chars

def Declaration.chars (decl : Declaration) : List Char :=
  '<' :: '!' :: (decl.name.chars ++ (decl.words.flatMap Word.chars ++ ['>']))

/-- Behind the body `terminator` occurs for the first time. -/
def EndsFirst (terminator body : List Char) : Prop :=
  ∀ before after, body ++ terminator = before ++ terminator ++ after → after = []

/-- An item that holds no other items. -/
inductive Leaf
  | text (chars : List Char) (plain : '<' ∉ chars)
  | comment (body : List Char) (ends : EndsFirst ['-', '-', '>'] body)
  | cdata (body : List Char) (ends : EndsFirst [']', ']', '>'] body)
  | instruction (body : TagBody)
  | declaration (decl : Declaration)
  | emptyElement (body : TagBody)

def Leaf.chars : Leaf → List Char
  | .text chars _ => chars
  | .comment body _ => ['<', '!', '-', '-'] ++ (body ++ ['-', '-', '>'])
  | .cdata body _ => ['<', '!', '[', 'C', 'D', 'A', 'T', 'A', '['] ++ (body ++ [']', ']', '>'])
  | .instruction body => '<' :: '?' :: (body.chars ++ ['?', '>'])
  | .declaration decl => decl.chars
  | .emptyElement body => '<' :: (body.chars ++ ['/', '>'])

/-- A sequence of items. An element holds a sequence of its own. -/
inductive Markup
  | done
  | leaf (item : Leaf) (rest : Markup)
  | element (body : TagBody) (content : Markup) (blanks : Blanks) (rest : Markup)

namespace Markup

def chars : Markup → List Char
  | done => []
  | leaf item rest => item.chars ++ rest.chars
  | element body content blanks rest =>
      body.startTag ++ (content.chars ++ (body.closingTag blanks ++ rest.chars))

/-- In markup that begins at the offset `start`, `offset` lies between two items or inside a text,
and `elements` are the offsets of the elements around it, the outermost first. -/
inductive Stands : Nat → Markup → Nat → List Nat → Prop
  /-- Before the first item, or at the end. -/
  | first (start : Nat) (markup : Markup) : Stands start markup start []
  | inText {start offset : Nat} {chars : List Char} {plain : '<' ∉ chars} {rest : Markup} :
      start ≤ offset → offset ≤ start + byteLength chars →
        Stands start (leaf (.text chars plain) rest) offset []
  | behindLeaf {start offset : Nat} {item : Leaf} {rest : Markup} {elements : List Nat} :
      Stands (start + byteLength item.chars) rest offset elements →
        Stands start (leaf item rest) offset elements
  | inElement {start offset : Nat} {body : TagBody} {content rest : Markup} {blanks : Blanks}
      {elements : List Nat} :
      Stands (start + byteLength body.startTag) content offset elements →
        Stands start (element body content blanks rest) offset (start :: elements)
  | behindElement {start offset : Nat} {body : TagBody} {content rest : Markup} {blanks : Blanks}
      {elements : List Nat} :
      Stands
        (start +
          byteLength (body.startTag ++ (content.chars ++ body.closingTag blanks)))
        rest offset elements →
        Stands start (element body content blanks rest) offset elements

end Markup

end XamlAssist.Document
