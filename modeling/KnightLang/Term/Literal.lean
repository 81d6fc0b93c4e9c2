/-
Literals: the values that evaluate to themselves, and their three coercions. Every literal has a
truth value, a number and a text.
-/
import KnightLang.Text.Numeral

namespace KnightLang

/-- A number, a text, a truth value or null. -/
inductive Literal
  | number (n : Int64)
  | text (s : String)
  | bool (b : Bool)
  | null
deriving DecidableEq, Inhabited

namespace Literal

/-- Zero, the empty text, false and null are false; every other literal is true. -/
def truthy : Literal → Bool
  | number n => n != 0
  | text s => !s.isEmpty
  | bool b => b
  | null => false

/-- A text counts as the number it starts with, true as one, false and null as zero. -/
def toInt : Literal → Int64
  | number n => n
  | text s => Text.leadingInt s
  | bool b => if b then 1 else 0
  | null => 0

/-- The text of a truth value. -/
def boolText (b : Bool) : String := if b then "true" else "false"

/-- A number is written in decimal, a truth value and null by name. -/
def toText : Literal → String
  | number n => n.toInt.repr
  | text s => s
  | bool b => boolText b
  | null => "null"

end Literal

end KnightLang
