import XamlAssist.Text.Blank
import XamlAssist.Text.Decimal

/-!
# Tokens of JSON text

Strings are kept as they are written, character by character, and told apart from the text they
stand for: a string that is not looked at may hold what no text can, such as half a surrogate pair.
-/

namespace XamlAssist.Json

open Text

/-- One character of a string as it is written. -/
inductive Written
  /-- The character itself. -/
  | plain (c : Char)
  /-- A backslash and a letter that stands for the character. -/
  | escaped (c : Char)
  /-- A backslash, the letter `u` and the four hexadecimal digits of a UTF-16 unit. -/
  | unit (n : Nat)
  deriving DecidableEq, Repr

/-- What records need to know of a number. -/
structure Number where
  negative : Bool := false
  /-- The part before a point or an exponent. -/
  integer : Nat
  /-- Whether the number is written without a point and an exponent. -/
  whole : Bool := true
  deriving DecidableEq, Repr

inductive Token
  | openBrace
  | closeBrace
  | openBracket
  | closeBracket
  | colon
  | comma
  | null
  | bool (value : Bool)
  | number (value : Number)
  | string (value : List Written)
  deriving DecidableEq, Repr

/-- The value of a hexadecimal digit. -/
def hexDigit? (c : Char) : Option Nat :=
  if '0' ≤ c && c ≤ '9' then some (c.toNat - '0'.toNat)
  else if 'a' ≤ c && c ≤ 'f' then some (c.toNat - 'a'.toNat + 10)
  else if 'A' ≤ c && c ≤ 'F' then some (c.toNat - 'A'.toNat + 10)
  else none

/-- The value of four hexadecimal digits. -/
def hexUnit? (a b c d : Char) : Option Nat := do
  some (16 * (16 * (16 * (← hexDigit? a) + (← hexDigit? b)) + (← hexDigit? c)) + (← hexDigit? d))

/-- The character that a letter behind a backslash stands for. -/
def escape? (letter : Char) : Option Char :=
  if letter = '"' then some '"'
  else if letter = '\\' then some '\\'
  else if letter = '/' then some '/'
  else if letter = 'b' then some '\x08'
  else if letter = 'f' then some '\x0c'
  else if letter = 'n' then some '\n'
  else if letter = 'r' then some '\r'
  else if letter = 't' then some '\t'
  else none

/-- Reads a string behind its opening quote; gives it and the text behind its closing quote. No
control character may be written plainly. -/
def readString : List Char → Option (List Written × List Char)
  | [] => none
  | '"' :: rest => some ([], rest)
  | '\\' :: 'u' :: a :: b :: c :: d :: rest => do
      let n ← hexUnit? a b c d
      let (tail, rest) ← readString rest
      some (.unit n :: tail, rest)
  | '\\' :: letter :: rest => do
      let c ← escape? letter
      let (tail, rest) ← readString rest
      some (.escaped c :: tail, rest)
  | c :: rest =>
      if c.toNat < 0x20 then none
      else do
        let (tail, rest) ← readString rest
        some (.plain c :: tail, rest)

/-- Splits off a run of digits that must not be empty. -/
def readDigits (text : List Char) : Option (List Char × List Char) :=
  match text.takeWhile Char.isDigit with
  | [] => none
  | digits => some (digits, text.dropWhile Char.isDigit)

/-- Reads the integer part of a number, which has no leading zeros. -/
def readInteger (text : List Char) : Option (Nat × List Char) :=
  match text with
  | '0' :: rest => some (0, rest)
  | _ => (readDigits text).map fun (digits, rest) => (ofDecimal digits, rest)

/-- Reads the point and the digits behind it, if there is a point; tells whether there was. -/
def readFraction (text : List Char) : Option (Bool × List Char) :=
  match text with
  | '.' :: rest => (readDigits rest).map fun (_, rest) => (true, rest)
  | _ => some (false, text)

/-- Reads the exponent, if there is one; tells whether there was. -/
def readExponent (text : List Char) : Option (Bool × List Char) :=
  match text with
  | c :: rest =>
      if c = 'e' || c = 'E' then
        let digits := if rest.head? = some '+' || rest.head? = some '-' then rest.drop 1 else rest
        (readDigits digits).map fun (_, rest) => (true, rest)
      else some (false, text)
  | [] => some (false, [])

/-- Reads a number. -/
def readNumber (text : List Char) : Option (Number × List Char) := do
  let negative := text.head? = some '-'
  let (integer, rest) ← readInteger (if negative then text.drop 1 else text)
  let (hasFraction, rest) ← readFraction rest
  let (hasExponent, rest) ← readExponent rest
  some ({ negative, integer, whole := !hasFraction && !hasExponent }, rest)

/-- Reads `word` and gives the text behind it. -/
def readWord (word text : List Char) : Option (List Char) :=
  if word.isPrefixOf text then some (text.drop word.length) else none

/-- Reads the token at the start of a text that is not blank there. -/
def readToken (text : List Char) : Option (Token × List Char) :=
  match text with
  | '\x7b' :: rest => some (.openBrace, rest)
  | '\x7d' :: rest => some (.closeBrace, rest)
  | '[' :: rest => some (.openBracket, rest)
  | ']' :: rest => some (.closeBracket, rest)
  | ':' :: rest => some (.colon, rest)
  | ',' :: rest => some (.comma, rest)
  | '"' :: rest => (readString rest).map fun (value, rest) => (.string value, rest)
  | 'n' :: rest => (readWord ['u', 'l', 'l'] rest).map (.null, ·)
  | 't' :: rest => (readWord ['r', 'u', 'e'] rest).map (.bool true, ·)
  | 'f' :: rest => (readWord ['a', 'l', 's', 'e'] rest).map (.bool false, ·)
  | _ => (readNumber text).map fun (value, rest) => (.number value, rest)

private theorem readString_length {text rest : List Char} {value : List Written}
    (h : readString text = some (value, rest)) : rest.length < text.length := by
  fun_induction readString text generalizing value rest with
  | case1 => simp at h
  | case2 => simp_all
  | case3 a b c d tail ih =>
      simp only [Option.bind_eq_bind, Option.bind_eq_some_iff, Option.some.injEq,
        Prod.mk.injEq] at h
      obtain ⟨_, _, ⟨_, _⟩, hs, _, rfl⟩ := h
      have := ih hs
      simp only [List.length_cons]
      omega
  | case4 letter tail _ ih =>
      simp only [Option.bind_eq_bind, Option.bind_eq_some_iff, Option.some.injEq,
        Prod.mk.injEq] at h
      obtain ⟨_, _, ⟨_, _⟩, hs, _, rfl⟩ := h
      have := ih hs
      simp only [List.length_cons]
      omega
  | case5 c tail _ _ _ hcontrol => simp at h
  | case6 c tail _ _ _ _ ih =>
      simp only [Option.bind_eq_bind, Option.bind_eq_some_iff, Option.some.injEq,
        Prod.mk.injEq] at h
      obtain ⟨⟨_, _⟩, hs, _, rfl⟩ := h
      have := ih hs
      simp only [List.length_cons]
      omega

private theorem readDigits_length {text digits rest : List Char}
    (h : readDigits text = some (digits, rest)) : rest.length < text.length := by
  have hall := congrArg List.length
    (List.takeWhile_append_dropWhile (p := Char.isDigit) (l := text))
  simp only [List.length_append] at hall
  unfold readDigits at h
  split at h
  · simp at h
  · next hne =>
      simp only [Option.some.injEq, Prod.mk.injEq] at h
      have := List.length_pos_iff.mpr hne
      rw [← h.2]
      omega

private theorem readInteger_length {text rest : List Char} {n : Nat}
    (h : readInteger text = some (n, rest)) : rest.length < text.length := by
  unfold readInteger at h
  split at h
  · simp_all
  · simp only [Option.map_eq_some_iff, Prod.mk.injEq] at h
    obtain ⟨⟨_, _⟩, hd, _, rfl⟩ := h
    exact readDigits_length hd

private theorem readFraction_length {text rest : List Char} {found : Bool}
    (h : readFraction text = some (found, rest)) : rest.length ≤ text.length := by
  unfold readFraction at h
  split at h
  · simp only [Option.map_eq_some_iff, Prod.mk.injEq] at h
    obtain ⟨⟨_, _⟩, hd, _, rfl⟩ := h
    have := readDigits_length hd
    simp only [List.length_cons]
    omega
  · simp_all

private theorem readExponent_length {text rest : List Char} {found : Bool}
    (h : readExponent text = some (found, rest)) : rest.length ≤ text.length := by
  unfold readExponent at h
  split at h
  · split at h
    · simp only [Option.map_eq_some_iff, Prod.mk.injEq] at h
      obtain ⟨⟨_, _⟩, hd, _, rfl⟩ := h
      have := readDigits_length hd
      simp only [List.length_cons]
      split at this
      · simp only [List.length_drop] at this
        omega
      · omega
    · simp_all
  · simp_all

private theorem readNumber_length {text rest : List Char} {value : Number}
    (h : readNumber text = some (value, rest)) : rest.length < text.length := by
  simp only [readNumber, Option.bind_eq_bind, Option.bind_eq_some_iff, Option.some.injEq,
    Prod.mk.injEq] at h
  obtain ⟨⟨_, _⟩, hi, ⟨_, _⟩, hf, ⟨_, _⟩, he, _, rfl⟩ := h
  have h1 := readInteger_length hi
  have h2 := readFraction_length hf
  have h3 := readExponent_length he
  simp only at h2 h3 ⊢
  split at h1
  · simp only [List.length_drop] at h1
    omega
  · omega

private theorem readWord_length {word text rest : List Char} (h : readWord word text = some rest) :
    rest.length ≤ text.length := by
  unfold readWord at h
  split at h
  · simp only [Option.some.injEq] at h
    simp [← h]
  · simp at h

private theorem readToken_length {text rest : List Char} {token : Token}
    (h : readToken text = some (token, rest)) : rest.length < text.length := by
  unfold readToken at h
  split at h
  case h_11 =>
    simp only [Option.map_eq_some_iff, Prod.mk.injEq] at h
    obtain ⟨⟨_, _⟩, hn, _, rfl⟩ := h
    exact readNumber_length hn
  case h_7 =>
    simp only [Option.map_eq_some_iff, Prod.mk.injEq] at h
    obtain ⟨⟨_, _⟩, hs, _, rfl⟩ := h
    exact Nat.lt_succ_of_lt (readString_length hs)
  case h_8 | h_9 | h_10 =>
    simp only [Option.map_eq_some_iff, Prod.mk.injEq] at h
    obtain ⟨_, hw, _, rfl⟩ := h
    exact Nat.lt_succ_of_le (readWord_length hw)
  all_goals simp_all

/-- The tokens of a text, behind those in `done`, which holds the latest first. -/
def readTokens (done : List Token) (text : List Char) : Option (List Token) :=
  match text with
  | [] => some done.reverse
  | c :: rest =>
      if isMarkupBlank c then readTokens done rest
      else
        match _h : readToken (c :: rest) with
        | none => none
        | some (token, tail) => readTokens (token :: done) tail
termination_by text.length
decreasing_by
  · simp
  · exact readToken_length _h

/-- The tokens of a text. -/
def tokens (text : List Char) : Option (List Token) := readTokens [] text

end XamlAssist.Json
