/-!
# Decimal numbers

The decimal digits of a number, and the number that a run of digits stands for.
-/

namespace XamlAssist.Text

/-- The decimal digits of a number, the highest first and without leading zeros. -/
def decimal (n : Nat) : List Char :=
  if n < 10 then [Char.ofNat (48 + n)] else decimal (n / 10) ++ [Char.ofNat (48 + n % 10)]

/-- The decimal digits of a number, as a string. -/
def decimalText (n : Nat) : String := String.ofList (decimal n)

/-- The decimal digits of an integer, with a minus sign if it is negative. -/
def integerText (n : Int) : String :=
  if n < 0 then "-" ++ decimalText n.natAbs else decimalText n.natAbs

/-- The number that a run of decimal digits stands for. -/
def ofDecimal (digits : List Char) : Nat :=
  digits.foldl (fun n c => 10 * n + (c.toNat - 48)) 0

end XamlAssist.Text
