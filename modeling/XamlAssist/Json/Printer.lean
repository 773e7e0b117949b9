import XamlAssist.Json.Value

/-!
# Printing JSON

Values are printed with one item or member on a line and two blanks for each level of nesting.
-/

namespace XamlAssist.Json

open Text

/-- The hexadecimal digit of a number below sixteen. -/
def hexDigit (n : Nat) : Char := if n < 10 then Char.ofNat (48 + n) else Char.ofNat (87 + n)

/-- How a character is written in a string. -/
def writeChar (c : Char) : Written :=
  if c = '"' || c = '\\' || c = '\n' || c = '\r' || c = '\t' || c = '\x08' || c = '\x0c' then
    .escaped c
  else if c.toNat < 0x20 then .unit c.toNat
  else .plain c

/-- How a text is written in a string. -/
def writeText (text : List Char) : List Written := text.map writeChar

/-- The letter that stands for a character behind a backslash. -/
def escapeLetter (c : Char) : Char :=
  if c = '\n' then 'n'
  else if c = '\r' then 'r'
  else if c = '\t' then 't'
  else if c = '\x08' then 'b'
  else if c = '\x0c' then 'f'
  else c

/-- The characters of a written character. -/
def Written.print : Written → List Char
  | .plain c => [c]
  | .escaped c => ['\\', escapeLetter c]
  | .unit n =>
      ['\\', 'u', hexDigit (n / 0x1000), hexDigit (n / 0x100 % 16), hexDigit (n / 0x10 % 16),
        hexDigit (n % 16)]

/-- A string in its quotes. -/
def printString (value : List Written) : List Char :=
  '"' :: value.flatMap Written.print ++ ['"']

/-- A number. What stands behind the point of a number that is not whole is not kept. -/
def Number.print (value : Number) : List Char :=
  (if value.negative then ['-'] else []) ++ decimal value.integer ++
    (if value.whole then [] else ['.', '0'])

/-- The start of a line at a level of nesting. -/
def newLine (level : Nat) : List Char := '\n' :: List.replicate (2 * level) ' '

mutual

/-- The text of a value whose first line is at the given level of nesting. -/
def Value.print (level : Nat) : Value → List Char
  | .null => ['n', 'u', 'l', 'l']
  | .bool true => ['t', 'r', 'u', 'e']
  | .bool false => ['f', 'a', 'l', 's', 'e']
  | .number value => value.print
  | .string value => printString value
  | .array [] => ['[', ']']
  | .array (item :: items) =>
      '[' :: newLine (level + 1) ++ item.print (level + 1) ++ printItems (level + 1) items ++
        newLine level ++ [']']
  | .object [] => ['\x7b', '\x7d']
  | .object ((name, value) :: fields) =>
      '\x7b' :: newLine (level + 1) ++ printString name ++ [':', ' '] ++
        value.print (level + 1) ++ printFields (level + 1) fields ++ newLine level ++ ['\x7d']

/-- Further items, each behind a comma. -/
def printItems (level : Nat) : List Value → List Char
  | [] => []
  | item :: items => ',' :: newLine level ++ item.print level ++ printItems level items

/-- Further members, each behind a comma. -/
def printFields (level : Nat) : List (List Written × Value) → List Char
  | [] => []
  | (name, value) :: fields =>
      ',' :: newLine level ++ printString name ++ [':', ' '] ++ value.print level ++
        printFields level fields

end

/-- The text of a value. -/
def Value.toText (value : Value) : List Char := value.print 0

end XamlAssist.Json
