/-
Raw text: bytes that may or may not be the UTF-8 of a text. Each byte is written as the character
with its number, so that ASCII text reads as usual.
-/
import KnightLang.Text.Utf8

namespace KnightLang.Text

/-- A text of bytes; all characters lie below 256. -/
abbrev Raw := List Char

namespace Raw

def ofBytes (bytes : List UInt8) : Raw := bytes.map fun b => Char.ofNat b.toNat

def toBytes (s : Raw) : List UInt8 := s.map fun c => UInt8.ofNat c.toNat

/-- The UTF-8 of a text. -/
def ofString (s : String) : Raw := ofBytes s.toUTF8.data.toList

/-- The text of which this is the UTF-8, as far as it is. -/
def decode (s : Raw) : String := decodeLossy s.toBytes

/-! ## Character classes -/

/-- The digits below a base, by value. -/
def digit? (base : Nat) (c : Char) : Option Nat :=
  let value :=
    if '0' ≤ c ∧ c ≤ '9' then c.toNat - '0'.toNat
    else if 'a' ≤ c ∧ c ≤ 'z' then c.toNat - 'a'.toNat + 10
    else if 'A' ≤ c ∧ c ≤ 'Z' then c.toNat - 'A'.toNat + 10
    else base
  if value < base then some value else none

def isDigit (c : Char) : Bool := '0' ≤ c && c ≤ '9'

def isLower (c : Char) : Bool := 'a' ≤ c && c ≤ 'z'

def isUpper (c : Char) : Bool := 'A' ≤ c && c ≤ 'Z'

def isLetter (c : Char) : Bool := isLower c || isUpper c

/-- The ASCII blanks, which numerals may start with. -/
def isSpace (c : Char) : Bool := c = ' ' || '\t' ≤ c && c ≤ '\r'

/-- Whether a name may start with a character. -/
def isNameStart (c : Char) : Bool := isLetter c || c = '_'

/-- Whether a name may go on with a character. -/
def isNameChar (c : Char) : Bool := isNameStart c || isDigit c

/-- Whether a text is a name: letters, digits and underscores, no digit first. -/
def isName : Raw → Bool
  | [] => false
  | c :: cs => isNameStart c && cs.all isNameChar

/-! ## Order -/

/-- Whether one text comes before another in byte order. -/
def before : Raw → Raw → Bool
  | _, [] => false
  | [], _ :: _ => true
  | a :: s, b :: t => a < b || a = b && before s t

/-- Whether a text comes before another or is the same. -/
def notAfter (s t : Raw) : Bool := !before t s

/-! ## Parts -/

/-- The text with a separator between each two parts. -/
def join (separator : Raw) : List Raw → Raw
  | [] => []
  | [s] => s
  | s :: ss => s ++ separator ++ join separator ss

/-- The text without any newlines at its end. -/
def trimNewlines (s : Raw) : Raw := (s.reverse.dropWhile (· = '\n')).reverse

/-- The text in lower case. -/
def lower (s : Raw) : Raw :=
  s.map fun c => if isUpper c then Char.ofNat (c.toNat + 32) else c

/-- The text in upper case. -/
def upper (s : Raw) : Raw :=
  s.map fun c => if isLower c then Char.ofNat (c.toNat - 32) else c

end Raw

end KnightLang.Text
