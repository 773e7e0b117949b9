/-!
# Parts of a text

Splitting at a character, suffixes without regard to ASCII case, and lines.
-/

namespace XamlAssist.Text

/-- Puts a character in front of the first part. -/
def consPart (c : Char) : List (List Char) → List (List Char)
  | [] => [[c]]
  | part :: parts => (c :: part) :: parts

/-- The parts of a text between the characters `separator`; there is always at least one. -/
def splitAtChar (separator : Char) : List Char → List (List Char)
  | [] => [[]]
  | c :: rest =>
      if c = separator then [] :: splitAtChar separator rest
      else consPart c (splitAtChar separator rest)

/-- The parts put together again with `separator` between them. -/
def joinWith (separator : List Char) : List (List Char) → List Char
  | [] => []
  | [part] => part
  | part :: parts => part ++ separator ++ joinWith separator parts

/-- The text before the first `separator`, or the whole text. -/
def before (separator : Char) (text : List Char) : List Char :=
  text.takeWhile (· ≠ separator)

/-- The text behind the last `separator`, or the whole text. -/
def behindLast (separator : Char) (text : List Char) : List Char :=
  (text.reverse.takeWhile (· ≠ separator)).reverse

/-- The lower-case form of the ASCII letters of a text. -/
def lowerAscii (text : List Char) : List Char := text.map Char.toLower

/-- Whether a text ends with `suffix`, up to the case of ASCII letters. -/
def endsWithIgnoringCase (suffix text : List Char) : Bool :=
  (lowerAscii suffix).isSuffixOf (lowerAscii text)

/-- The text behind the first occurrence of `pattern`. -/
def behindFirst? (pattern : List Char) : List Char → Option (List Char)
  | [] => if pattern = [] then some [] else none
  | c :: rest =>
      if pattern.isPrefixOf (c :: rest) then some ((c :: rest).drop pattern.length)
      else behindFirst? pattern rest

end XamlAssist.Text
