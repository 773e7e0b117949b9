import XamlAssist.Extension.Cursor
import XamlAssist.Text.Reader

/-!
# Scanning a markup extension

A scan has the text of the attribute value at hand. Where an unquoted value ends, it looks back from
there over the bytes of the text.
-/

namespace XamlAssist.Extension.Scan

open Text

/-- The offset `stop` moved back over the blanks before it, but not beyond `start`. -/
def trimEnd (bytes : List UInt8) (start : Nat) : Nat → Nat
  | 0 => 0
  | stop + 1 =>
      if start < stop + 1 && (charAt? bytes stop).any isAsciiBlank then trimEnd bytes start stop
      else stop + 1

/-- Passes the byte at the current place. At the end of the text nothing happens. -/
def step (bytes : List UInt8) (s : Cursor) : Cursor :=
  match charAt? bytes s.pos with
  | none => s
  | some c =>
      let stop := trimEnd bytes (s.level.argument.valueStart.getD s.pos) s.pos
      { (if s.literal then s else s.accept stop c) with pos := s.pos + 1 }

theorem pos_step (bytes : List UInt8) (s : Cursor) (h : s.pos < bytes.length) :
    (step bytes s).pos = s.pos + 1 := by
  rw [step, charAt?, List.getElem?_eq_getElem h]
  rfl

def scanner : Scanner Cursor where
  pos := Cursor.pos
  step := step
  pos_step := pos_step

/-- Continues a scan of `text` up to `offset`; it never goes back. -/
def advance (s : Cursor) (text : List Char) (offset : Nat) : Cursor := scanner.advance s text offset

/-- The scan of `text` up to `offset`. -/
def upTo (text : List Char) (offset : Nat) : Cursor := advance {} text offset

end XamlAssist.Extension.Scan
