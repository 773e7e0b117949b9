import XamlAssist.Proofs.Text.Offset
import XamlAssist.Text.Blank

/-!
# Well-formed extensions

The grammar of markup extensions: a name, and behind blanks any number of arguments between commas.
An argument is a word, a quoted text or an extension of its own, and may have a label `Name=`. The
parts carry the conditions that they have to meet, so a value of `Ext` is a well-formed extension
and `Ext.chars` is its text.
-/

namespace XamlAssist.Extension

open Text

/-- A possibly empty run of blanks. -/
structure Blanks where
  chars : List Char
  blank : ∀ c ∈ chars, isAsciiBlank c = true

def isTokenChar (c : Char) : Bool :=
  !isAsciiBlank c && c != '=' && c != ',' && c != '{' && c != '}' && c != '\x27'

/-- A word: no blank, bracket, comma, quote or equals sign stands in it. -/
structure Token where
  chars : List Char
  nonempty : chars ≠ []
  plain : ∀ c ∈ chars, isTokenChar c = true

/-- The value of a labelled argument that stands neither in quotes nor in brackets. -/
structure Phrase where
  first : Char
  rest : List Char
  plain : ∀ c ∈ first :: rest, c ≠ ',' ∧ c ≠ '{' ∧ c ≠ '}'
  starts : isAsciiBlank first = false ∧ first ≠ '\x27'
  ends : isAsciiBlank ((first :: rest).getLast (by simp)) = false

def Phrase.chars (phrase : Phrase) : List Char := phrase.first :: phrase.rest

/-- The name of an argument with its `=` and the blanks around that. -/
structure Label where
  name : Token
  before : Blanks
  after : Blanks

def Label.chars (label : Label) : List Char :=
  label.name.chars ++ (label.before.chars ++ '=' :: label.after.chars)

/-- The text of a label, if there is one. -/
def labelChars (label : Option Label) : List Char := (label.map Label.chars).getD []

/-- An argument that is no extension. -/
inductive Leaf
  | word (token : Token)
  | phrase (label : Label) (value : Phrase)
  | quoted (label : Option Label) (value : List Char) (closed : '\x27' ∉ value)

def Leaf.chars : Leaf → List Char
  | .word token => token.chars
  | .phrase label value => label.chars ++ value.chars
  | .quoted label value _ => labelChars label ++ '\x27' :: (value ++ ['\x27'])

mutual

/-- An extension without or with arguments. -/
inductive Ext
  | bare (lead : Blanks) (name : Token) (trail : Blanks)
  | applied (lead : Blanks) (name : Token) (gap : Blanks) (gap_ne : gap.chars ≠ []) (args : Args)
      (trail : Blanks)

inductive Arg
  | leaf (item : Leaf)
  | nested (label : Option Label) (ext : Ext)

/-- One or more arguments, with a comma and blanks between them. -/
inductive Args
  | last (arg : Arg)
  | more (arg : Arg) (before after : Blanks) (rest : Args)

end

mutual

/-- The text behind the opening bracket. -/
def Ext.body : Ext → List Char
  | .bare lead name trail => lead.chars ++ (name.chars ++ (trail.chars ++ ['}']))
  | .applied lead name gap _ args trail =>
      lead.chars ++ (name.chars ++ (gap.chars ++ (args.chars ++ (trail.chars ++ ['}']))))

def Arg.chars : Arg → List Char
  | .leaf item => item.chars
  | .nested label ext => labelChars label ++ '{' :: ext.body

def Args.chars : Args → List Char
  | .last arg => arg.chars
  | .more arg before after rest =>
      arg.chars ++ (before.chars ++ ',' :: (after.chars ++ rest.chars))

end

/-- The number of commas between arguments, not counting those of nested extensions. -/
def Args.commas : Args → Nat
  | .last _ => 0
  | .more _ _ _ rest => rest.commas + 1

namespace Ext

def chars (ext : Ext) : List Char := '{' :: ext.body

def lead : Ext → Blanks
  | bare lead _ _ => lead
  | applied lead _ _ _ _ _ => lead

def name : Ext → Token
  | bare _ name _ => name
  | applied _ name _ _ _ _ => name

def commas : Ext → Nat
  | bare _ _ _ => 0
  | applied _ _ _ _ args _ => args.commas

/-- Where the name of an extension starts that stands at the offset `start`. -/
def nameStart (start : Nat) (ext : Ext) : Nat := start + 1 + byteLength ext.lead.chars

/-- Where the name of an extension stops that stands at the offset `start`. -/
def nameStop (start : Nat) (ext : Ext) : Nat :=
  ext.nameStart start + byteLength ext.name.chars

end Ext

mutual

/-- All extensions in an extension at the offset `start`, each with its own offset and before those
that are nested in it. -/
def Ext.extents (start : Nat) : Ext → List (Nat × Ext)
  | .bare lead name trail => [(start, .bare lead name trail)]
  | .applied lead name gap gap_ne args trail =>
      (start, .applied lead name gap gap_ne args trail) ::
        args.extents (start + 1 + byteLength (lead.chars ++ (name.chars ++ gap.chars)))

def Arg.extents (start : Nat) : Arg → List (Nat × Ext)
  | .leaf _ => []
  | .nested label ext => ext.extents (start + byteLength (labelChars label))

def Args.extents (start : Nat) : Args → List (Nat × Ext)
  | .last arg => arg.extents start
  | .more arg before after rest =>
      arg.extents start ++
        rest.extents (start + byteLength (arg.chars ++ (before.chars ++ ',' :: after.chars)))

end

/-- Whether `offset` is inside the brackets of the extension `placed.2` at `placed.1`. -/
def encloses (offset : Nat) (placed : Nat × Ext) : Bool :=
  placed.1 < offset && offset < placed.1 + byteLength placed.2.chars

/-- The extensions around an offset of the text, the outermost first. -/
def Ext.around (ext : Ext) (offset : Nat) : List (Nat × Ext) :=
  (ext.extents 0).filter (encloses offset)

theorem Ext.exists_chars_eq (ext : Ext) :
    ∃ rest, ext.chars = '{' :: (ext.lead.chars ++ (ext.name.chars ++ rest)) := by
  cases ext with
  | bare lead name trail => exact ⟨_, rfl⟩
  | applied lead name gap gap_ne args trail => exact ⟨_, rfl⟩

/-! ### Extents -/

mutual

/-- An extension stands in the text of the extension around it at its offset. -/
theorem Ext.mem_extents {start : Nat} {placed : Nat × Ext} (ext : Ext)
    (h : placed ∈ ext.extents start) :
    ∃ before after, ext.chars = before ++ (placed.2.chars ++ after) ∧
      placed.1 = start + byteLength before := by
  match ext with
  | .bare lead name trail =>
      simp only [Ext.extents, List.mem_singleton] at h
      exact ⟨[], [], by simp [h], by simp [h]⟩
  | .applied lead name gap gap_ne args trail =>
      simp only [Ext.extents, List.mem_cons] at h
      rcases h with rfl | hargs
      · exact ⟨[], [], by simp, by simp⟩
      · obtain ⟨before, after, hchars, hplace⟩ := Args.mem_extents args hargs
        refine ⟨'{' :: (lead.chars ++ (name.chars ++ (gap.chars ++ before))),
          after ++ (trail.chars ++ ['}']), ?_, ?_⟩
        · simp [Ext.chars, Ext.body, hchars]
        · have hsize : '{'.utf8Size = 1 := rfl
          simp only [hplace, byteLength_append, byteLength_cons]
          omega

theorem Arg.mem_extents {start : Nat} {placed : Nat × Ext} (arg : Arg)
    (h : placed ∈ arg.extents start) :
    ∃ before after, arg.chars = before ++ (placed.2.chars ++ after) ∧
      placed.1 = start + byteLength before := by
  match arg with
  | .leaf _ => simp [Arg.extents] at h
  | .nested label ext =>
      obtain ⟨before, after, hchars, hplace⟩ := Ext.mem_extents ext h
      refine ⟨labelChars label ++ before, after, ?_, ?_⟩
      · rw [Arg.chars, ← Ext.chars, hchars, List.append_assoc]
      · rw [hplace, byteLength_append, Nat.add_assoc]

theorem Args.mem_extents {start : Nat} {placed : Nat × Ext} (args : Args)
    (h : placed ∈ args.extents start) :
    ∃ before after, args.chars = before ++ (placed.2.chars ++ after) ∧
      placed.1 = start + byteLength before := by
  match args with
  | .last arg => exact Arg.mem_extents arg h
  | .more arg before after rest =>
      rcases List.mem_append.mp h with harg | hrest
      · obtain ⟨s, t, hchars, hplace⟩ := Arg.mem_extents arg harg
        exact ⟨s, _, by rw [Args.chars, hchars, List.append_assoc, List.append_assoc], hplace⟩
      · obtain ⟨s, t, hchars, hplace⟩ := Args.mem_extents rest hrest
        refine ⟨arg.chars ++ (before.chars ++ ',' :: (after.chars ++ s)), t, ?_, ?_⟩
        · simp [Args.chars, hchars]
        · simp only [hplace, byteLength_append, byteLength_cons]
          omega

end

theorem Ext.mem_extents_self (start : Nat) (ext : Ext) : (start, ext) ∈ ext.extents start := by
  cases ext <;> exact List.mem_cons_self

theorem filter_encloses_eq_nil {offset start : Nat} {text : List Char} {placed : List (Nat × Ext)}
    (hplaced : ∀ p ∈ placed, ∃ before after, text = before ++ (p.2.chars ++ after) ∧
      p.1 = start + byteLength before)
    (hout : offset ≤ start ∨ start + byteLength text ≤ offset) :
    placed.filter (encloses offset) = [] := by
  rw [List.filter_eq_nil_iff]
  intro p hp
  obtain ⟨before, after, htext, hstart⟩ := hplaced p hp
  have hlength := congrArg byteLength htext
  simp only [byteLength_append] at hlength
  simp only [encloses, Bool.and_eq_true, decide_eq_true_eq]
  omega

end XamlAssist.Extension
