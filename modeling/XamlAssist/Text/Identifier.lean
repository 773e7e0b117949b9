import XamlAssist.Text.IdentifierTable

/-!
# Identifier characters

Names in selectors follow the Unicode rules for identifiers, with the underscore as a further
first character and, in style classes, the hyphen. The rules come as tables, which are not fixed
here: every edition of Unicode has its own.
-/

namespace XamlAssist.Text

/-- The characters with the Unicode properties `XID_Start` and `XID_Continue`. -/
class IdentifierTables where
  isXidStart : Char → Bool
  isXidContinue : Char → Bool

/-- Whether a number lies in one of the closed ranges, given in ascending order. -/
def inRanges (n : Nat) : List (Nat × Nat) → Bool
  | [] => false
  | (lo, hi) :: ranges => if n < lo then false else n ≤ hi || inRanges n ranges

/-- The tables that selectors are read with. -/
instance unicodeTables : IdentifierTables where
  isXidStart c := inRanges c.toNat identifierStartRanges
  isXidContinue c :=
    inRanges c.toNat identifierStartRanges || inRanges c.toNat identifierExtendRanges

variable [tables : IdentifierTables]

/-- A character that may begin an identifier. -/
def isIdentifierStart (c : Char) : Bool := c == '_' || tables.isXidStart c

/-- A character that may continue an identifier. -/
def isIdentifierContinue (c : Char) : Bool := tables.isXidContinue c

/-- A character of a style class, anywhere in it. -/
def isStyleClassChar (c : Char) : Bool := c == '-' || isIdentifierContinue c

end XamlAssist.Text
