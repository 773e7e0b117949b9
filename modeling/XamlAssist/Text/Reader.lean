import XamlAssist.Text.Offset

/-!
# Going through a text

There are two ways to go through a text. A reader is given one character after the other and sees
no more of the text than that. A scanner has the whole text at hand and looks at bytes of it
wherever it wants to, going on by one byte with each step. Both stop at an offset and can be taken
on from there.
-/

namespace XamlAssist.Text

/-- The bytes of the UTF-8 form of a text. -/
def utf8 (text : List Char) : List UInt8 := text.flatMap String.utf8EncodeChar

/-- The byte at `i` as the character of its number. A byte of a longer character is a character that
no ASCII character equals. -/
def charAt? (bytes : List UInt8) (i : Nat) : Option Char := bytes[i]?.map Char.ofUInt8

/-- What reads characters and counts their bytes. -/
structure Reader (ρ : Type) where
  /-- The number of bytes read. -/
  pos : ρ → Nat
  step : ρ → Char → ρ
  pos_step : ∀ r c, pos (step r c) = pos r + c.utf8Size

namespace Reader

variable {ρ : Type} (reader : Reader ρ)

/-- Reads a whole text. -/
def readAll (r : ρ) (text : List Char) : ρ := text.foldl reader.step r

/-- Reads on in `rest`, the text behind the place that was reached, as long as whole characters end
at or before `offset`. -/
def readUpTo (r : ρ) (offset : Nat) : List Char → ρ
  | [] => r
  | c :: rest =>
      if reader.pos r + c.utf8Size ≤ offset then readUpTo (reader.step r c) offset rest else r

/-- Continues in `text` up to `offset`; it never goes back. -/
def advance (r : ρ) (text : List Char) (offset : Nat) : ρ :=
  reader.readUpTo r offset (dropBytes text (reader.pos r))

end Reader

/-- What looks at the bytes of a text and passes one of them with each step. -/
structure Scanner (σ : Type) where
  /-- The number of bytes passed. -/
  pos : σ → Nat
  step : List UInt8 → σ → σ
  pos_step : ∀ bytes s, pos s < bytes.length → pos (step bytes s) = pos s + 1

namespace Scanner

variable {σ : Type} (scanner : Scanner σ)

/-- Takes a number of steps. -/
def steps (bytes : List UInt8) : Nat → σ → σ
  | 0, s => s
  | count + 1, s => steps bytes count (scanner.step bytes s)

/-- Continues in `text` up to the last place at or before `offset`; it never goes back. -/
def advance (s : σ) (text : List Char) (offset : Nat) : σ :=
  scanner.steps (utf8 text) (floorOffset text offset - scanner.pos s) s

end Scanner

end XamlAssist.Text
