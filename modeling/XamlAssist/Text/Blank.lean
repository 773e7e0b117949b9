/-!
# Blank characters

Three notions of blank space: that of markup, that of ASCII, which adds the form feed, and that of
Unicode (`White_Space`).
-/

namespace XamlAssist.Text

/-- Space, tab, carriage return or line feed. -/
def isMarkupBlank (c : Char) : Bool :=
  c == ' ' || c == '\t' || c == '\r' || c == '\n'

/-- A markup blank or the form feed. -/
def isAsciiBlank (c : Char) : Bool := isMarkupBlank c || c == '\x0c'

/-- A character with the Unicode property `White_Space`. -/
def isBlank (c : Char) : Bool :=
  let n := c.toNat
  (0x9 ≤ n && n ≤ 0xD) || n == 0x20 || n == 0x85 || n == 0xA0 || n == 0x1680 ||
    (0x2000 ≤ n && n ≤ 0x200A) || n == 0x2028 || n == 0x2029 || n == 0x202F || n == 0x205F ||
    n == 0x3000

/-- The text without the leading and trailing characters in the class `p`. -/
def trimBy (p : Char → Bool) (text : List Char) : List Char :=
  ((text.dropWhile p).reverse.dropWhile p).reverse

/-- The text without leading and trailing blanks. -/
def trim (text : List Char) : List Char := trimBy isBlank text

end XamlAssist.Text
