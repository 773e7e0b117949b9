import Mathlib.Data.List.DropRight
import XamlAssist.Proofs.Text.Utf8
import XamlAssist.Resource.Index

/-!
# Reading well-nested content

A grammar of the content of XML elements, with the events that it stands for: elements around other
content, elements around a single text, and blanks. Each piece is read off the front of a document
and adds its events, whatever stands behind it. Main statements: `Content.readFrom?_append`, and
`IsEscaped.textOf?_utf8` for the texts.
-/

namespace XamlAssist.Resource.Xml

open Text

/-! ### Blanks -/

/-- A run of text between two tags, without blanks around it. It may be empty. -/
structure IsRun (run : List UInt8) : Prop where
  unmarked : 0x3C ∉ run
  head : ∀ b ∈ run.head?, isBlankByte b = false
  last : ∀ b ∈ run.getLast?, isBlankByte b = false

private theorem trimEnd_eq_self {run : List UInt8} (h : ∀ b ∈ run.getLast?, isBlankByte b = false) :
    trimEnd run = run := by
  refine List.rdropWhile_eq_self_iff.mpr fun hne => ?_
  simp [h _ (List.getLast?_eq_some_getLast hne)]

/-! ### Tags -/

/-- A byte that may stand in the name of an element or an attribute. -/
def isNameByte (b : UInt8) : Bool :=
  !isBlankByte b && b != 0x3C && b != 0x3E && b != 0x2F && b != 0x3D && b != 0x22 && b != 0x27 &&
    b != 0x21 && b != 0x3F

/-- The name of an element or an attribute. -/
structure IsName (name : List UInt8) : Prop where
  ne_nil : name ≠ []
  plain : name.all isNameByte = true

/-- The attributes of a start tag, each with blanks before it and its value in double quotes. -/
inductive IsAttributes : List UInt8 → Prop
  | nil : IsAttributes []
  | cons {gap key value rest : List UInt8} (gap_ne_nil : gap ≠ [])
      (blank : gap.all isBlankByte = true) (isName : IsName key) (unquoted : 0x22 ∉ value)
      (isAttributes : IsAttributes rest) :
      IsAttributes (gap ++ key ++ 0x3D :: 0x22 :: value ++ 0x22 :: rest)

/-- A start tag with the given name. -/
inductive IsStart (name : List UInt8) : List UInt8 → Prop
  | intro {attributes : List UInt8} (isName : IsName name)
      (isAttributes : IsAttributes attributes) :
      IsStart name (0x3C :: name ++ attributes ++ [0x3E])

/-- The end tag with the given name. -/
def stopTag (name : List UInt8) : List UInt8 := 0x3C :: 0x2F :: name ++ [0x3E]

private theorem IsStart.isName {name start : List UInt8} (h : IsStart name start) :
    IsName name := by
  obtain ⟨hname, -⟩ := h
  exact hname

private theorem IsName.ne_of_mem {name : List UInt8} (h : IsName name) {b : UInt8} (hb : b ∈ name) :
    isBlankByte b = false ∧ b ≠ 0x3E ∧ b ≠ 0x2F ∧ b ≠ 0x22 ∧ b ≠ 0x27 ∧ b ≠ 0x21 ∧ b ≠ 0x3F := by
  have hname := List.all_eq_true.mp h.plain b hb
  simp only [isNameByte, Bool.and_eq_true, Bool.not_eq_true', bne_iff_ne] at hname
  obtain ⟨⟨⟨⟨⟨⟨⟨⟨hblank, -⟩, hgt⟩, hslash⟩, -⟩, hquote⟩, hapostrophe⟩, hmark⟩, hquestion⟩ := hname
  exact ⟨hblank, hgt, hslash, hquote, hapostrophe, hmark, hquestion⟩

private theorem ne_of_isBlankByte {b : UInt8} (h : isBlankByte b = true) :
    b ≠ 0x3E ∧ b ≠ 0x3C ∧ b ≠ 0x22 ∧ b ≠ 0x27 := by
  refine ⟨?_, ?_, ?_, ?_⟩ <;> rintro rfl <;> exact absurd h (by decide)

private theorem splitTag?_none_append {piece : List UInt8}
    (h : ∀ b ∈ piece, b ≠ 0x3E ∧ b ≠ 0x22 ∧ b ≠ 0x27) (rest : List UInt8) :
    splitTag? none (piece ++ rest) =
      (splitTag? none rest).map fun (content, behind) => (piece ++ content, behind) := by
  induction piece with
  | nil => simp
  | cons b piece ih =>
      obtain ⟨hgt, hquote, hapostrophe⟩ := h b List.mem_cons_self
      rw [List.cons_append, splitTag?, if_neg (by simp [hgt])]
      simp only [hquote, hapostrophe, decide_false, Bool.or_self, Bool.false_eq_true, if_false]
      rw [ih fun b hb => h b (List.mem_cons_of_mem _ hb), Option.map_map]
      rfl

private theorem splitTag?_quoted_append {value : List UInt8} (h : 0x22 ∉ value)
    (rest : List UInt8) :
    splitTag? (some 0x22) (value ++ 0x22 :: rest) =
      (splitTag? none rest).map fun (content, behind) => (value ++ 0x22 :: content, behind) := by
  induction value with
  | nil => simp [splitTag?]
  | cons b value ih =>
      rw [List.mem_cons, not_or] at h
      rw [List.cons_append, splitTag?, if_neg (by simp)]
      simp only [Ne.symm h.1, if_false]
      rw [ih h.2, Option.map_map]
      rfl

private theorem IsName.splitTag?_append {name : List UInt8} (h : IsName name) (rest : List UInt8) :
    splitTag? none (name ++ rest) =
      (splitTag? none rest).map fun (content, behind) => (name ++ content, behind) := by
  refine splitTag?_none_append (fun b hb => ?_) rest
  obtain ⟨-, hgt, -, hquote, hapostrophe, -, -⟩ := h.ne_of_mem hb
  exact ⟨hgt, hquote, hapostrophe⟩

private theorem IsAttributes.splitTag?_append {attributes : List UInt8}
    (h : IsAttributes attributes) (rest : List UInt8) :
    splitTag? none (attributes ++ 0x3E :: rest) = some (attributes, rest) := by
  induction h with
  | nil => simp [splitTag?]
  | @cons gap key value others _ hblank hkey hvalue _ ih =>
      have hgap : ∀ b ∈ gap, b ≠ 0x3E ∧ b ≠ 0x22 ∧ b ≠ 0x27 := fun b hb =>
        have hb := ne_of_isBlankByte (List.all_eq_true.mp hblank b hb)
        ⟨hb.1, hb.2.2.1, hb.2.2.2⟩
      have hequals : ∀ b ∈ [(0x3D : UInt8)], b ≠ 0x3E ∧ b ≠ 0x22 ∧ b ≠ 0x27 :=
        List.forall_mem_singleton.mpr (by decide)
      have hopen (rest : List UInt8) : splitTag? none (0x22 :: rest) =
          (splitTag? (some 0x22) rest).map fun (content, behind) => (0x22 :: content, behind) := by
        simp [splitTag?]
      calc splitTag? none (gap ++ key ++ 0x3D :: 0x22 :: value ++ 0x22 :: others ++ 0x3E :: rest)
          = splitTag? none (gap ++ (key ++ ([0x3D] ++ 0x22 :: (value ++ 0x22 ::
              (others ++ 0x3E :: rest))))) := by simp
        _ = some (gap ++ key ++ 0x3D :: 0x22 :: value ++ 0x22 :: others, rest) := by
            rw [splitTag?_none_append hgap, hkey.splitTag?_append, splitTag?_none_append hequals,
              hopen, splitTag?_quoted_append hvalue, ih]
            simp

/-- A start tag does not end with the slash that would make the element an empty one. -/
theorem IsAttributes.getLast?_ne {attributes : List UInt8} (h : IsAttributes attributes)
    {name : List UInt8} (hname : IsName name) : (name ++ attributes).getLast? ≠ some 0x2F := by
  have hquote : attributes = [] ∨ attributes.getLast? = some 0x22 := by
    induction h with
    | nil => exact .inl rfl
    | cons _ _ _ _ _ ih =>
        obtain rfl | ih := ih
        · exact .inr (by rw [List.getLast?_append]; rfl)
        · exact .inr (by rw [List.getLast?_append, List.getLast?_cons, ih]; rfl)
  obtain rfl | hquote := hquote
  · rw [List.append_nil]
    intro hlast
    exact (hname.ne_of_mem (List.mem_of_getLast? hlast)).2.2.1 rfl
  · rw [List.getLast?_append, hquote, Option.some_or]
    decide

private theorem IsAttributes.takeWhile_append {attributes : List UInt8}
    (h : IsAttributes attributes) {name : List UInt8} (hname : IsName name) :
    (name ++ attributes).takeWhile (!isBlankByte ·) = name := by
  have hplain : ∀ b ∈ name, (!isBlankByte b) = true := fun b hb => by
    rw [(hname.ne_of_mem hb).1]
    rfl
  rw [List.takeWhile_append_of_pos hplain]
  cases h with
  | nil => simp
  | @cons gap _ _ _ hne hblank _ _ _ =>
      obtain ⟨b, gap, rfl⟩ := List.exists_cons_of_ne_nil hne
      have hb : isBlankByte b = true := List.all_eq_true.mp hblank b List.mem_cons_self
      simp [hb]

private theorem IsName.stopName_eq {name : List UInt8} (h : IsName name) :
    stopName name = name := by
  have hlast : ∀ b ∈ name.getLast?, isBlankByte b = false := fun b hb =>
    (h.ne_of_mem (List.mem_of_getLast? hb)).1
  rw [stopName, trimEnd_eq_self hlast, ite_self]

private theorem IsStart.readMarkup?_append {name start : List UInt8} (h : IsStart name start)
    (rest : List UInt8) :
    ∃ inner, start = 0x3C :: inner ∧ readMarkup? (inner ++ rest) = some (.start name, rest) := by
  obtain @⟨attributes, hname, hattributes⟩ := h
  refine ⟨name ++ attributes ++ [0x3E], by simp, ?_⟩
  have hsplit : splitTag? none (name ++ attributes ++ [0x3E] ++ rest) =
      some (name ++ attributes, rest) := by
    rw [List.append_assoc, List.append_assoc, hname.splitTag?_append, List.cons_append,
      List.nil_append, hattributes.splitTag?_append]
    rfl
  have hlast := hattributes.getLast?_ne hname
  have htake := hattributes.takeWhile_append hname
  obtain ⟨b, tail, rfl⟩ := List.exists_cons_of_ne_nil hname.ne_nil
  obtain ⟨-, -, hslash, -, -, hmark, hquestion⟩ := hname.ne_of_mem List.mem_cons_self
  simp only [List.cons_append] at hsplit hlast htake ⊢
  rw [readMarkup?, if_neg hmark, if_neg hquestion, if_neg hslash, hsplit]
  simp only [Option.map_some, if_neg hlast, htake]

private theorem IsName.readMarkup?_stopTag {name : List UInt8} (h : IsName name)
    (rest : List UInt8) :
    readMarkup? (0x2F :: name ++ [0x3E] ++ rest) = some (.stop name, rest) := by
  have hsplit : splitTag? none (name ++ [0x3E] ++ rest) = some (name, rest) := by
    rw [List.append_assoc, h.splitTag?_append]
    simp [splitTag?]
  rw [List.cons_append, List.cons_append, readMarkup?, if_neg (by decide), if_neg (by decide),
    if_pos rfl, hsplit]
  simp [h.stopName_eq]

/-- An instruction, such as the declaration of the version. -/
def instruction (content : List UInt8) : List UInt8 := 0x3C :: 0x3F :: content ++ [0x3F, 0x3E]

private theorem splitAtFirst?_append {b : UInt8} {before : List UInt8} (h : b ∉ before)
    (pattern rest : List UInt8) :
    splitAtFirst? (b :: pattern) (before ++ (b :: pattern) ++ rest) = some (before, rest) := by
  induction before with
  | nil => simp [splitAtFirst?]
  | cons c before ih =>
      rw [List.mem_cons, not_or] at h
      rw [List.cons_append, List.cons_append, splitAtFirst?, if_neg (by simp [h.1]), ih h.2]
      rfl

private theorem readMarkup?_instruction {content : List UInt8} (hend : 0x3F ∉ content)
    (hhead : content.head? ≠ some 0x3E) (rest : List UInt8) :
    readMarkup? (0x3F :: content ++ [0x3F, 0x3E] ++ rest) = some (.other, rest) := by
  have hmore : (content ++ [0x3F, 0x3E] ++ rest).head? ≠ some 0x3E := by
    cases content with
    | nil => simp
    | cons b content => exact hhead
  have hsplit : splitAtFirst? (ascii "?>") (content ++ [0x3F, 0x3E] ++ rest) =
      some (content, rest) := splitAtFirst?_append hend [0x3E] rest
  rw [List.cons_append, List.cons_append, readMarkup?, if_neg (by decide), if_pos rfl,
    if_neg hmore, hsplit]
  rfl

/-! ### Reading -/

private theorem readFrom?_blank {gap : List UInt8} (h : gap.all isBlankByte = true)
    (done : List Event) (opened : List (List UInt8)) (rest : List UInt8) :
    readFrom? done opened (gap ++ rest) = readFrom? done opened rest := by
  have hdrop : (gap ++ rest).dropWhile isBlankByte = rest.dropWhile isBlankByte :=
    List.dropWhile_append_of_pos (List.all_eq_true.mp h)
  rw [readFrom?.eq_def, readFrom?.eq_def done opened rest, hdrop]

/-- What is read up to the end of the next tag: the text before it and the tag. -/
theorem readFrom?_markup {run inner rest : List UInt8} {done next : List Event}
    {opened others : List (List UInt8)} {markup : Markup} (hrun : IsRun run)
    (hmarkup : readMarkup? inner = some (markup, rest))
    (hadd : addMarkup? (addText done run) opened markup = some (next, others)) :
    readFrom? done opened (run ++ 0x3C :: inner) = readFrom? next others rest := by
  have hcontent : (run ++ 0x3C :: inner).dropWhile isBlankByte = run ++ 0x3C :: inner := by
    cases run with
    | nil => exact List.dropWhile_cons_of_neg (by decide)
    | cons b run => exact List.dropWhile_cons_of_neg (by simp [hrun.head b rfl])
  have hunmarked : ∀ b ∈ run, decide (b ≠ 0x3C) = true := fun b hb =>
    decide_eq_true fun h => hrun.unmarked (h ▸ hb)
  have htake : (run ++ 0x3C :: inner).takeWhile (fun b => decide (b ≠ 0x3C)) = run := by
    rw [List.takeWhile_append_of_pos hunmarked, List.takeWhile_cons_of_neg (by decide),
      List.append_nil]
  have hdrop : ((run ++ 0x3C :: inner).dropWhile isBlankByte).dropWhile
      (fun b => decide (b ≠ 0x3C)) = 0x3C :: inner := by
    rw [hcontent, List.dropWhile_append_of_pos hunmarked, List.dropWhile_cons_of_neg (by decide)]
  rw [readFrom?.eq_def]
  simp only [hcontent, htake, trimEnd_eq_self hrun.last]
  split
  · next h => exact absurd (hdrop.symm.trans h) (List.cons_ne_nil _ _)
  · next h =>
      obtain ⟨-, rfl⟩ := List.cons.inj (hdrop.symm.trans h)
      split
      · next hnone => exact absurd (hmarkup.symm.trans hnone) (Option.some_ne_none _)
      · next hsome =>
          obtain ⟨rfl, rfl⟩ := Prod.mk.inj (Option.some.inj (hmarkup.symm.trans hsome))
          rw [hadd]

/-! ### Content -/

/-- The content of an element, with the events that it stands for. -/
inductive Content : List Event → List UInt8 → Prop
  | blank {gap : List UInt8} (blank : gap.all isBlankByte = true) : Content [] gap
  | instruction {content : List UInt8} (unended : 0x3F ∉ content)
      (head_ne : content.head? ≠ some 0x3E) : Content [] (instruction content)
  | text {name start run : List UInt8} (isStart : IsStart name start) (isRun : IsRun run)
      (ne_nil : run ≠ []) :
      Content [.start name, .text run, .stop name] (start ++ run ++ stopTag name)
  | element {name start inner : List UInt8} {events : List Event} (isStart : IsStart name start)
      (content : Content events inner) :
      Content (.start name :: events ++ [.stop name]) (start ++ inner ++ stopTag name)
  | append {first second : List Event} {left right : List UInt8} (before : Content first left)
      (behind : Content second right) : Content (first ++ second) (left ++ right)

private theorem isRun_nil : IsRun [] := ⟨nofun, nofun, nofun⟩

private theorem IsStart.readFrom?_append {name start : List UInt8} (h : IsStart name start)
    (done : List Event) (opened : List (List UInt8)) (rest : List UInt8) :
    readFrom? done opened (start ++ rest) =
      readFrom? (.start name :: done) (name :: opened) rest := by
  obtain ⟨inner, rfl, hmarkup⟩ := h.readMarkup?_append rest
  exact readFrom?_markup isRun_nil hmarkup rfl

private theorem IsName.readFrom?_stopTag {name run : List UInt8} (h : IsName name)
    (hrun : IsRun run) (done : List Event) (opened : List (List UInt8)) (rest : List UInt8) :
    readFrom? done (name :: opened) (run ++ (stopTag name ++ rest)) =
      readFrom? (.stop name :: addText done run) opened rest :=
  readFrom?_markup hrun (h.readMarkup?_stopTag rest) (if_pos rfl)

/-- Content is read off the front of a document, whatever has been read before it. -/
theorem Content.readFrom?_append {events : List Event} {bytes : List UInt8}
    (h : Content events bytes) (done : List Event) (opened : List (List UInt8))
    (rest : List UInt8) :
    readFrom? done opened (bytes ++ rest) = readFrom? (events.reverse ++ done) opened rest := by
  induction h generalizing done opened rest with
  | blank hblank => exact readFrom?_blank hblank done opened rest
  | instruction hend hhead =>
      exact readFrom?_markup isRun_nil (readMarkup?_instruction hend hhead rest) rfl
  | text hstart hrun hne =>
      rw [List.append_assoc, List.append_assoc, hstart.readFrom?_append,
        hstart.isName.readFrom?_stopTag hrun, addText, if_neg (by simpa using hne)]
      rfl
  | element hstart _ ih =>
      rw [List.append_assoc, List.append_assoc, hstart.readFrom?_append, ih]
      have hstop := hstart.isName.readFrom?_stopTag isRun_nil
      rw [← List.nil_append (stopTag _ ++ rest), hstop]
      simp [addText]
  | append _ _ ihfirst ihsecond =>
      rw [List.append_assoc, ihfirst, ihsecond, List.reverse_append, List.append_assoc]

private theorem Content.head?_ne {events : List Event} {bytes : List UInt8}
    (h : Content events bytes) :
    bytes.head? ≠ some 0xEF := by
  induction h with
  | @blank gap hblank =>
      intro hhead
      exact absurd (List.all_eq_true.mp hblank 0xEF (List.mem_of_head? hhead)) (by decide)
  | instruction => simp [Xml.instruction]
  | text hstart | element hstart =>
      obtain ⟨inner, rfl, -⟩ := hstart.readMarkup?_append []
      simp
  | @append _ _ left right _ _ ihleft ihright =>
      cases left with
      | nil => exact ihright
      | cons b left => exact ihleft

/-- The events of a document are those of its content. -/
theorem Content.events?_eq {events : List Event} {document : List UInt8}
    (h : Content events document) : events? document = some events := by
  have hend (done : List Event) : readFrom? done [] [] = some done.reverse := by
    rw [readFrom?.eq_def]
    rfl
  have hmark : dropMark document = document := by
    have hhead := h.head?_ne
    cases document with
    | nil => rfl
    | cons b document =>
        have hb : ¬0xEF = b := fun hb => hhead (congrArg some hb.symm)
        simp [dropMark, hb]
  have hread := h.readFrom?_append [] [] []
  rw [List.append_nil, List.append_nil, hend, List.reverse_reverse] at hread
  rw [events?, hmark, hread]

/-! ### Texts -/

/-- The characters that have a name to write them by. -/
def namedCharacters : List (String × Char) :=
  [("amp", '&'), ("lt", '<'), ("gt", '>'), ("apos", '\x27'), ("quot", '"')]

/-- A text and a form of it in a document: `&` and `<` are written by their names, and other
characters that have a name may be. -/
inductive IsEscaped : List Char → List Char → Prop
  | nil : IsEscaped [] []
  | plain {c : Char} {text escaped : List Char} (ne_amp : c ≠ '&') (ne_lt : c ≠ '<')
      (rest : IsEscaped text escaped) : IsEscaped (c :: text) (c :: escaped)
  | named {name : String} {c : Char} {text escaped : List Char}
      (named : (name, c) ∈ namedCharacters) (rest : IsEscaped text escaped) :
      IsEscaped (c :: text) ('&' :: name.toList ++ ';' :: escaped)

/-- The form of a text in a document with names for those characters alone that need one. -/
def escape (text : List Char) : List Char :=
  text.flatMap fun c =>
    if c = '&' then "&amp;".toList else if c = '<' then "&lt;".toList else [c]

theorem isEscaped_escape (text : List Char) : IsEscaped text (escape text) := by
  induction text with
  | nil => exact .nil
  | cons c text ih =>
      rw [escape, List.flatMap_cons]
      by_cases hamp : c = '&'
      · rw [if_pos hamp]
        show IsEscaped (c :: text) ('&' :: "amp".toList ++ ';' :: escape text)
        exact .named (by rw [hamp]; decide) ih
      · rw [if_neg hamp]
        by_cases hlt : c = '<'
        · rw [if_pos hlt]
          show IsEscaped (c :: text) ('&' :: "lt".toList ++ ';' :: escape text)
          exact .named (by rw [hlt]; decide) ih
        · rw [if_neg hlt]
          exact .plain hamp hlt ih

private theorem entity?_of_mem_namedCharacters {name : String} {c : Char}
    (h : (name, c) ∈ namedCharacters) : entity? name.toList = some c := by
  have hall : (namedCharacters.all fun (name, c) => entity? name.toList = some c) = true := by
    decide
  exact of_decide_eq_true (List.all_eq_true.mp hall _ h)

private theorem ne_of_mem_namedCharacters {name : String} {c : Char}
    (h : (name, c) ∈ namedCharacters) :
    ∀ d ∈ name.toList, d ≠ ';' ∧ d ≠ '&' ∧ d ≠ '<' := by
  have hall : (namedCharacters.all fun (name, _) =>
    name.toList.all fun d => d ≠ ';' && (d ≠ '&' && d ≠ '<')) = true := by decide
  simpa using List.all_eq_true.mp hall _ h

private theorem unescapeFrom?_reference {name : List Char} (h : ∀ c ∈ name, c ≠ ';' ∧ c ≠ '&')
    (read rest : List Char) :
    unescapeFrom? (some read) (name ++ ';' :: rest) =
      (entity? (read.reverse ++ name)).bind fun c => (unescapeFrom? none rest).map (c :: ·) := by
  induction name generalizing read with
  | nil =>
      rw [List.nil_append, unescapeFrom?.eq_def]
      simp
  | cons c name ih =>
      obtain ⟨hsemicolon, hamp⟩ := h c List.mem_cons_self
      have hstep : unescapeFrom? (some read) (c :: (name ++ ';' :: rest)) =
          unescapeFrom? (some (c :: read)) (name ++ ';' :: rest) := by
        rw [unescapeFrom?.eq_def]
        simp [hsemicolon, hamp]
      rw [List.cons_append, hstep, ih (fun c hc => h c (List.mem_cons_of_mem _ hc))]
      simp

private theorem IsEscaped.unescapeFrom?_eq {text escaped : List Char} (h : IsEscaped text escaped) :
    unescapeFrom? none escaped = some text := by
  induction h with
  | nil => rfl
  | plain hamp _ _ ih =>
      rw [unescapeFrom?.eq_def]
      simp [hamp, ih]
  | @named name c text escaped hnamed _ ih =>
      have hname : ∀ d ∈ name.toList, d ≠ ';' ∧ d ≠ '&' := by
        intro d hd
        obtain ⟨hsemicolon, hamp, -⟩ := ne_of_mem_namedCharacters hnamed d hd
        exact ⟨hsemicolon, hamp⟩
      have hopen : unescapeFrom? none ('&' :: (name.toList ++ ';' :: escaped)) =
          unescapeFrom? (some []) (name.toList ++ ';' :: escaped) := by
        rw [unescapeFrom?.eq_def]
        simp
      rw [List.cons_append, hopen, unescapeFrom?_reference hname, List.reverse_nil, List.nil_append,
        entity?_of_mem_namedCharacters hnamed, ih]
      rfl

theorem IsEscaped.textOf?_utf8 {text : String} {escaped : List Char}
    (h : IsEscaped text.toList escaped) : textOf? (utf8 escaped) = some text := by
  simp [textOf?, fromUTF8?_utf8, h.unescapeFrom?_eq]

/-- A text that is not empty and has no blanks of markup around it. -/
structure IsUnpadded (text : List Char) : Prop where
  ne_nil : text ≠ []
  head : ∀ c ∈ text.head?, isMarkupBlank c = false
  last : ∀ c ∈ text.getLast?, isMarkupBlank c = false

private theorem isUnpadded_iff {text : List Char} :
    IsUnpadded text ↔ text ≠ [] ∧ text.head?.all (!isMarkupBlank ·) = true ∧
      text.getLast?.all (!isMarkupBlank ·) = true := by
  have hall (c? : Option Char) :
      c?.all (!isMarkupBlank ·) = true ↔ ∀ c ∈ c?, isMarkupBlank c = false := by
    cases c? <;> simp
  rw [hall, hall]
  constructor
  · exact fun h => ⟨h.ne_nil, h.head, h.last⟩
  · exact fun h => ⟨h.1, h.2.1, h.2.2⟩

instance : DecidablePred IsUnpadded := fun _ => decidable_of_iff _ isUnpadded_iff.symm

private theorem IsEscaped.exists_last {text escaped : List Char} {c : Char}
    (h : IsEscaped (text ++ [c]) escaped) :
    ∃ before last, escaped = before ++ [last] ∧ (last = c ∨ last = ';') := by
  induction text generalizing escaped with
  | nil =>
      cases h with
      | plain _ _ hrest =>
          cases hrest
          exact ⟨[], c, rfl, .inl rfl⟩
      | @named name _ _ _ _ hrest =>
          cases hrest
          exact ⟨'&' :: name.toList, ';', rfl, .inr rfl⟩
  | cons d text ih =>
      cases h with
      | plain _ _ hrest =>
          obtain ⟨before, last, rfl, hlast⟩ := ih hrest
          exact ⟨d :: before, last, rfl, hlast⟩
      | @named name _ _ _ _ hrest =>
          obtain ⟨before, last, rfl, hlast⟩ := ih hrest
          exact ⟨'&' :: name.toList ++ ';' :: before, last, by simp, hlast⟩

/-- The form of a text in a document has no blanks around it if the text has none. -/
theorem IsEscaped.isUnpadded {text escaped : List Char} (h : IsEscaped text escaped)
    (hunpadded : IsUnpadded text) : IsUnpadded escaped := by
  obtain ⟨init, c, rfl⟩ : ∃ init c, text = init ++ [c] :=
    ⟨_, _, (List.dropLast_concat_getLast hunpadded.ne_nil).symm⟩
  obtain ⟨before, last, hescaped, hlast⟩ := h.exists_last
  refine ⟨by simp [hescaped], ?_, ?_⟩
  · have hhead := hunpadded.head
    generalize init ++ [c] = text at h hhead
    cases h with
    | nil => exact nofun
    | plain => exact hhead
    | named =>
        intro c hc
        obtain rfl := Option.some.inj hc
        decide
  · intro d hd
    rw [hescaped, List.getLast?_concat] at hd
    obtain rfl := Option.some.inj hd
    obtain rfl | rfl := hlast
    · exact hunpadded.last _ (by simp)
    · decide

theorem IsEscaped.not_mem {text escaped : List Char} (h : IsEscaped text escaped) :
    '<' ∉ escaped := by
  induction h with
  | nil => exact List.not_mem_nil
  | plain _ hlt _ ih => exact List.not_mem_cons_of_ne_of_not_mem hlt.symm ih
  | @named name c text escaped hnamed _ ih =>
      have hname : '<' ∉ name.toList := fun hlt =>
        (ne_of_mem_namedCharacters hnamed _ hlt).2.2 rfl
      simp [hname, ih]

private theorem isBlankByte_of_mem_utf8EncodeChar {c : Char} (h : isMarkupBlank c = false) :
    ∀ b ∈ String.utf8EncodeChar c, isBlankByte b = false := by
  intro b hb
  rw [Bool.eq_false_iff]
  intro hblank
  have hlow : b < 0x80 := by
    simp only [isBlankByte, Bool.or_eq_true, decide_eq_true_eq] at hblank
    obtain ((rfl | rfl) | rfl) | rfl := hblank <;> decide
  have hc : c = Char.ofNat b.toNat := by
    rw [← toNat_eq_of_mem_utf8EncodeChar hb hlow, Char.ofNat_toNat]
  simp only [isBlankByte, Bool.or_eq_true, decide_eq_true_eq] at hblank
  obtain ((rfl | rfl) | rfl) | rfl := hblank <;> exact absurd h (by rw [hc]; decide)

theorem IsUnpadded.isRun_utf8 {text : List Char} (h : IsUnpadded text) (hlt : '<' ∉ text) :
    IsRun (utf8 text) where
  unmarked := by
    intro hmem
    obtain ⟨c, hc, hbyte⟩ := List.mem_flatMap.mp hmem
    have hnat := toNat_eq_of_mem_utf8EncodeChar hbyte (by decide)
    have hchar : c = '<' := by
      rw [← Char.ofNat_toNat c, hnat]
      rfl
    exact hlt (hchar ▸ hc)
  head := by
    obtain ⟨c, rest, rfl⟩ := List.exists_cons_of_ne_nil h.ne_nil
    intro b hb
    obtain ⟨d, bytes, hbytes⟩ := List.exists_cons_of_ne_nil (utf8EncodeChar_ne_nil c)
    rw [utf8_cons, hbytes] at hb
    obtain rfl := Option.some.inj hb
    exact isBlankByte_of_mem_utf8EncodeChar (h.head c rfl) d (hbytes ▸ List.mem_cons_self)
  last := by
    obtain ⟨init, c, rfl⟩ : ∃ init c, text = init ++ [c] :=
      ⟨_, _, (List.dropLast_concat_getLast h.ne_nil).symm⟩
    intro b hb
    rw [utf8_append, utf8_cons, utf8_nil, List.append_nil,
      ← List.dropLast_concat_getLast (utf8EncodeChar_ne_nil c), ← List.append_assoc,
      List.getLast?_concat] at hb
    obtain rfl := Option.some.inj hb
    exact isBlankByte_of_mem_utf8EncodeChar (h.last c (by simp)) _ (List.getLast_mem _)

end XamlAssist.Resource.Xml
