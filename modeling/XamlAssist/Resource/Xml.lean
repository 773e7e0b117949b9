import XamlAssist.Text.Decimal
import XamlAssist.Text.Parts

/-!
# Elements of an XML document

A document is read as bytes and gives the starts and ends of its elements and the runs of text
between them. Empty elements, comments, character data, declarations and instructions give nothing,
but they end a run of text. An end must have the name of the last start that has none yet.
-/

namespace XamlAssist.Resource.Xml

open Text

/-- The bytes of an ASCII text. -/
def ascii (text : String) : List UInt8 := text.toList.map fun c => c.toNat.toUInt8

/-- Space, tab, carriage return or line feed. -/
def isBlankByte (b : UInt8) : Bool := b = 0x20 || b = 0x09 || b = 0x0D || b = 0x0A

/-- A lower-case ASCII letter for an upper-case one; other bytes stay. -/
def lowerByte (b : UInt8) : UInt8 := if 0x41 ≤ b && b ≤ 0x5A then b + 0x20 else b

/-- What stands between `<` and `>`. -/
inductive Markup
  | start (name : List UInt8)
  | stop (name : List UInt8)
  /-- Something without an event of its own. -/
  | other
  deriving DecidableEq, Repr

/-- A part of a document. -/
inductive Event
  | start (name : List UInt8)
  | text (content : List UInt8)
  | stop (name : List UInt8)
  deriving DecidableEq, Repr

/-- The bytes before and behind the first occurrence of a pattern. -/
def splitAtFirst? (pattern : List UInt8) : List UInt8 → Option (List UInt8 × List UInt8)
  | [] => none
  | b :: rest =>
      if pattern.isPrefixOf (b :: rest) then some ([], (b :: rest).drop pattern.length)
      else (splitAtFirst? pattern rest).map fun (before, behind) => (b :: before, behind)

/-- The content of a tag up to the `>` that ends it, which is not in quotes, and the bytes behind
it. -/
def splitTag? (quote : Option UInt8) : List UInt8 → Option (List UInt8 × List UInt8)
  | [] => none
  | b :: rest =>
      if quote = none && b = 0x3E then some ([], rest)
      else
        let next :=
          match quote with
          | some q => if b = q then none else some q
          | none => if b = 0x22 || b = 0x27 then some b else none
        (splitTag? next rest).map fun (content, behind) => (b :: content, behind)

/-- The content of a document type declaration up to the `>` that ends it, when `depth` brackets
are open inside it, and the bytes behind it. -/
def splitDoctype? (depth : Nat) : List UInt8 → Option (List UInt8 × List UInt8)
  | [] => none
  | b :: rest =>
      if b = 0x3E && depth = 0 then some ([], rest)
      else
        let next := if b = 0x3C then depth + 1 else if b = 0x3E then depth - 1 else depth
        (splitDoctype? next rest).map fun (content, behind) => (b :: content, behind)

/-- Reads behind `<!`: a comment, character data or a document type declaration with a name. -/
def readDeclaration? (bytes : List UInt8) : Option (List UInt8) :=
  if (ascii "--").isPrefixOf bytes then
    (splitAtFirst? (ascii "-->") (bytes.drop 2)).map Prod.snd
  else if (ascii "[CDATA[").isPrefixOf bytes then
    (splitAtFirst? (ascii "]]>") (bytes.drop 7)).map Prod.snd
  else if (ascii "doctype").isPrefixOf (bytes.map lowerByte) then do
    let (content, behind) ← splitDoctype? 0 (bytes.drop 7)
    if content.all isBlankByte then none else some behind
  else none

/-- Drops blanks at the end. -/
def trimEnd (bytes : List UInt8) : List UInt8 := (bytes.reverse.dropWhile isBlankByte).reverse

/-- The name in an end tag. Blanks behind it do not belong to it. -/
def stopName (content : List UInt8) : List UInt8 :=
  if content.all isBlankByte then content else trimEnd content

/-- Reads behind `<`; gives what it was and the bytes behind its `>`. -/
def readMarkup? (bytes : List UInt8) : Option (Markup × List UInt8) :=
  match bytes with
  | [] => none
  | b :: rest =>
      if b = 0x21 then (readDeclaration? rest).map (.other, ·)
      else if b = 0x3F then
        if rest.head? = some 0x3E then none
        else (splitAtFirst? (ascii "?>") rest).map fun (_, behind) => (.other, behind)
      else if b = 0x2F then
        (splitTag? none rest).map fun (content, behind) => (.stop (stopName content), behind)
      else
        (splitTag? none (b :: rest)).map fun (content, behind) =>
          if content.getLast? = some 0x2F then (.other, behind)
          else (.start (content.takeWhile (!isBlankByte ·)), behind)

private theorem splitAtFirst?_length {pattern bytes before behind : List UInt8}
    (h : splitAtFirst? pattern bytes = some (before, behind)) : behind.length ≤ bytes.length := by
  induction bytes generalizing before behind with
  | nil => simp [splitAtFirst?] at h
  | cons b rest ih =>
      simp only [splitAtFirst?] at h
      split at h
      · simp only [Option.some.injEq, Prod.mk.injEq] at h
        simp [← h.2]
      · simp only [Option.map_eq_some_iff, Prod.mk.injEq] at h
        obtain ⟨⟨_, _⟩, hr, _, rfl⟩ := h
        have := ih hr
        simp only [List.length_cons]
        omega

private theorem splitTag?_length {quote : Option UInt8} {bytes content behind : List UInt8}
    (h : splitTag? quote bytes = some (content, behind)) : behind.length ≤ bytes.length := by
  induction bytes generalizing quote content behind with
  | nil => simp [splitTag?] at h
  | cons b rest ih =>
      simp only [splitTag?] at h
      split at h
      · simp only [Option.some.injEq, Prod.mk.injEq] at h
        simp [← h.2]
      · simp only [Option.map_eq_some_iff, Prod.mk.injEq] at h
        obtain ⟨⟨_, _⟩, hr, _, rfl⟩ := h
        have := ih hr
        simp only [List.length_cons]
        omega

private theorem splitDoctype?_length {depth : Nat} {bytes content behind : List UInt8}
    (h : splitDoctype? depth bytes = some (content, behind)) :
    behind.length ≤ bytes.length := by
  induction bytes generalizing depth content behind with
  | nil => simp [splitDoctype?] at h
  | cons b rest ih =>
      simp only [splitDoctype?] at h
      split at h
      · simp only [Option.some.injEq, Prod.mk.injEq] at h
        simp [← h.2]
      · simp only [Option.map_eq_some_iff, Prod.mk.injEq] at h
        obtain ⟨⟨_, _⟩, hr, _, rfl⟩ := h
        have := ih hr
        simp only [List.length_cons]
        omega

private theorem readDeclaration?_length {bytes behind : List UInt8}
    (h : readDeclaration? bytes = some behind) : behind.length ≤ bytes.length := by
  unfold readDeclaration? at h
  split at h
  · simp only [Option.map_eq_some_iff] at h
    obtain ⟨⟨_, _⟩, hs, rfl⟩ := h
    have := splitAtFirst?_length hs
    simp only [List.length_drop] at this ⊢
    omega
  split at h
  · simp only [Option.map_eq_some_iff] at h
    obtain ⟨⟨_, _⟩, hs, rfl⟩ := h
    have := splitAtFirst?_length hs
    simp only [List.length_drop] at this ⊢
    omega
  split at h
  · simp only [Option.bind_eq_bind, Option.bind_eq_some_iff] at h
    obtain ⟨⟨_, _⟩, hs, h⟩ := h
    have := splitDoctype?_length hs
    simp only [List.length_drop] at this
    split at h
    · simp at h
    · simp only [Option.some.injEq] at h
      rw [← h]
      omega
  · simp at h

private theorem readMarkup?_length {bytes behind : List UInt8} {markup : Markup}
    (h : readMarkup? bytes = some (markup, behind)) : behind.length ≤ bytes.length := by
  unfold readMarkup? at h
  split at h
  · simp at h
  · next b rest =>
      simp only [List.length_cons]
      split at h
      · simp only [Option.map_eq_some_iff, Prod.mk.injEq] at h
        obtain ⟨_, hd, _, rfl⟩ := h
        have := readDeclaration?_length hd
        omega
      split at h
      · split at h
        · simp at h
        · simp only [Option.map_eq_some_iff, Prod.mk.injEq] at h
          obtain ⟨⟨_, _⟩, hs, _, rfl⟩ := h
          have := splitAtFirst?_length hs
          simp only
          omega
      split at h
      · simp only [Option.map_eq_some_iff, Prod.mk.injEq] at h
        obtain ⟨⟨_, _⟩, hs, _, rfl⟩ := h
        have := splitTag?_length hs
        simp only
        omega
      · simp only [Option.map_eq_some_iff] at h
        obtain ⟨⟨content, _⟩, hs, h⟩ := h
        have := splitTag?_length hs
        simp only [List.length_cons] at this
        simp only at h
        split at h <;> simp_all

/-- Adds what stands between `<` and `>` to the events read, the latest of which is first; `opened`
holds the names of the elements that are open. -/
def addMarkup? (events : List Event) (opened : List (List UInt8)) :
    Markup → Option (List Event × List (List UInt8))
  | .start name => some (.start name :: events, name :: opened)
  | .other => some (events, opened)
  | .stop name =>
      match opened with
      | [] => none
      | last :: outer => if name = last then some (.stop name :: events, outer) else none

/-- Adds a run of text, unless it is empty. -/
def addText (events : List Event) (run : List UInt8) : List Event :=
  if run.isEmpty then events else .text run :: events

/-- Reads on in a document, with the events read so far, the latest first, and the names of the
elements that are open. -/
def readFrom? (events : List Event) (opened : List (List UInt8)) (bytes : List UInt8) :
    Option (List Event) :=
  let content := bytes.dropWhile isBlankByte
  let events := addText events (trimEnd (content.takeWhile (· ≠ 0x3C)))
  match _h : content.dropWhile (· ≠ 0x3C) with
  | [] => some events.reverse
  | _ :: rest =>
      match _hm : readMarkup? rest with
      | none => none
      | some (markup, behind) =>
          match addMarkup? events opened markup with
          | none => none
          | some (events, opened) => readFrom? events opened behind
termination_by bytes.length
decreasing_by
  have h1 := readMarkup?_length _hm
  have h2 := congrArg List.length (List.takeWhile_append_dropWhile
    (p := fun b : UInt8 => decide (b ≠ 0x3C)) (l := bytes.dropWhile isBlankByte))
  have h3 := congrArg List.length (List.takeWhile_append_dropWhile (p := isBlankByte) (l := bytes))
  simp only [List.length_append] at h2 h3
  have h4 := congrArg List.length _h
  simp only [List.length_cons] at h4
  simp only [content] at h4
  omega

/-- The bytes without a byte order mark at their start. -/
def dropMark (bytes : List UInt8) : List UInt8 :=
  if [0xEF, 0xBB, 0xBF].isPrefixOf bytes then bytes.drop 3 else bytes

/-- The events of a document, if it can be read to its end. -/
def events? (document : List UInt8) : Option (List Event) := readFrom? [] [] (dropMark document)

/-- The part of a name behind its first colon, or the whole name. -/
def localName (name : List UInt8) : List UInt8 :=
  match name.dropWhile (· ≠ 0x3A) with
  | [] => name
  | _ :: rest => rest

/-- The value of a digit in base 10 or 16. -/
def digit? (base : Nat) (c : Char) : Option Nat :=
  let value :=
    if '0' ≤ c && c ≤ '9' then c.toNat - '0'.toNat
    else if 'a' ≤ c && c ≤ 'f' then c.toNat - 'a'.toNat + 10
    else if 'A' ≤ c && c ≤ 'F' then c.toNat - 'A'.toNat + 10
    else base
  if value < base then some value else none

/-- The character with the given number, in base 10 or 16; neither 0 nor a surrogate has one. -/
def charReference? (base : Nat) (digits : List Char) : Option Char :=
  if digits.isEmpty then none
  else do
    let code := (← digits.mapM (digit? base)).foldl (fun n d => base * n + d) 0
    if code = 0 then none
    else if code.isValidChar then some (Char.ofNat code) else none

/-- The character that a name between `&` and `;` stands for. -/
def entity? (name : List Char) : Option Char :=
  match name with
  | '#' :: 'x' :: digits => charReference? 16 digits
  | '#' :: digits => charReference? 10 digits
  | ['l', 't'] => some '<'
  | ['g', 't'] => some '>'
  | ['a', 'm', 'p'] => some '&'
  | ['a', 'p', 'o', 's'] => some '\x27'
  | ['q', 'u', 'o', 't'] => some '"'
  | _ => none

/-- The text with each reference replaced by its character. `reference` holds the characters read
behind an `&`, the latest first. -/
def unescapeFrom? (reference : Option (List Char)) : List Char → Option (List Char)
  | [] => if reference.isNone then some [] else none
  | c :: rest =>
      match reference with
      | none =>
          if c = '&' then unescapeFrom? (some []) rest else (unescapeFrom? none rest).map (c :: ·)
      | some name =>
          if c = ';' then do
            let c ← entity? name.reverse
            (unescapeFrom? none rest).map (c :: ·)
          else if c = '&' then none
          else unescapeFrom? (some (c :: name)) rest

/-- The text that a run of text stands for, if it is UTF-8 and its references are known. -/
def textOf? (run : List UInt8) : Option String := do
  let text ← String.fromUTF8? ⟨run.toArray⟩
  (unescapeFrom? none text.toList).map String.ofList

end XamlAssist.Resource.Xml
