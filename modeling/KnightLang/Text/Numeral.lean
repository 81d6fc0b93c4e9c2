/-
Decimal numerals in text. `leadingInt` reads the number a text starts with: blanks, an optional
sign, then as many decimal digits as there are, in arithmetic that wraps modulo `2 ^ 64`. Every
text denotes a number, since no digits at all read as zero.
-/
import KnightLang.Text.Blank

namespace KnightLang.Text

/-- The value of one decimal digit. -/
def digitValue (c : Char) : Int64 := Int64.ofNat (c.toNat - '0'.toNat)

/-- The value of a run of decimal digits modulo `2 ^ 64`, first digit first. -/
def wrappedValue (digits : List Char) : Int64 :=
  digits.foldl (fun acc d => acc * 10 + digitValue d) 0

/-- The value of a run of decimal digits, first digit first. -/
def digitsValue (digits : List Char) : Nat := Nat.ofDigitChars 10 digits 0

/-- The number at the start of a text without blanks in front. -/
def signedValue : List Char → Int64
  | '-' :: cs => -wrappedValue (cs.takeWhile Char.isDigit)
  | '+' :: cs => wrappedValue (cs.takeWhile Char.isDigit)
  | cs => wrappedValue (cs.takeWhile Char.isDigit)

/-- The number a text starts with, zero where it starts with none. -/
def leadingInt (s : String) : Int64 := signedValue (s.toList.dropWhile isBlank)

end KnightLang.Text
