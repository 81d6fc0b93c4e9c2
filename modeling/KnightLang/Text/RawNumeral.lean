/-
Numerals in raw text, as they stand in commands: blanks, an optional sign, then digits in a base
that a leading `0x`, `0b` or `0` may choose. Reading gives the number and what follows its digits.
-/
import KnightLang.Number.Binary64
import KnightLang.Text.Raw

namespace KnightLang.Text.Raw

open Number (Binary64)

/-! ## Writing -/

/-- The decimal numeral of a number. -/
def ofInt (n : Int) : Raw := (toString n).toList

/-- The decimal numeral of a number. -/
def ofNat (n : Nat) : Raw := Nat.toDigits 10 n

/-! ## Whole numbers -/

/-- The value of the digits that a text starts with, after a value, and what follows them. -/
def digitsFrom (base value : Nat) : Raw → Nat × Raw
  | [] => (value, [])
  | c :: cs =>
    match digit? base c with
    | some d => digitsFrom base (base * value + d) cs
    | none => (value, c :: cs)

/-- Whether a text starts with a digit of a base. -/
def startsWithDigit (base : Nat) : Raw → Bool
  | [] => false
  | c :: _ => (digit? base c).isSome

/-- The number that a text starts with, its base chosen by the first characters. -/
def natural? (s : Raw) : Option (Nat × Raw) :=
  let other :=
    match s with
    | '0' :: x :: digits =>
      if (x = 'x' ∨ x = 'X') ∧ startsWithDigit 16 digits then some (digitsFrom 16 0 digits)
      else if (x = 'b' ∨ x = 'B') ∧ startsWithDigit 2 digits then some (digitsFrom 2 0 digits)
      else some (digitsFrom 8 0 s)
    | _ => none
  match other with
  | some reading => some reading
  | none => if startsWithDigit 10 s then some (digitsFrom 10 0 s) else none

/-- The number in base ten that a text starts with. -/
def decimal? (s : Raw) : Option (Nat × Raw) :=
  if startsWithDigit 10 s then some (digitsFrom 10 0 s) else none

/-- A number with blanks and a sign in front of it. -/
def signed? (natural? : Raw → Option (Nat × Raw)) (s : Raw) : Option (Int × Raw) :=
  match s.dropWhile isSpace with
  | '-' :: cs => (natural? cs).map fun (n, rest) => (-(n : Int), rest)
  | '+' :: cs => (natural? cs).map fun (n, rest) => ((n : Int), rest)
  | cs => (natural? cs).map fun (n, rest) => ((n : Int), rest)

/-! ## Numbers with a point -/

/-- A whole number, the number of its digits that stand after a point, and what follows them. -/
def pointed? (base : Nat) (s : Raw) : Option (Nat × Nat × Raw) :=
  let (whole, rest) := digitsFrom base 0 s
  match rest with
  | '.' :: digits =>
    let (all, rest) := digitsFrom base whole digits
    if startsWithDigit base s ∨ startsWithDigit base digits then
      some (all, digits.length - rest.length, rest)
    else none
  | _ => if startsWithDigit base s then some (whole, 0, rest) else none

/-- The exponent that a text starts with after a mark in lower case, and what follows it. -/
def exponent (mark : Char) (s : Raw) : Int × Raw :=
  match s with
  | c :: rest =>
    let power : Option (Int × Raw) :=
      match rest with
      | '-' :: digits => (decimal? digits).map fun (n, rest) => (-(n : Int), rest)
      | '+' :: digits => (decimal? digits).map fun (n, rest) => ((n : Int), rest)
      | digits => (decimal? digits).map fun (n, rest) => ((n : Int), rest)
    if lower [c] = [mark] then power.getD (0, s) else (0, s)
  | [] => (0, [])

/-- The number `digits * 10 ^ power`, and whether it is out of range. Powers far beyond the range
are cut. -/
def decimalValue (negative : Bool) (digits : Nat) (power : Int) : Binary64 × Bool :=
  let length : Int := (ofNat digits).length
  let power := max (min power (400 - length)) (-400 - length)
  let (n, d) := Number.scaleTen power digits 1
  Binary64.ofFraction negative n d

/-- The number `digits * 2 ^ power`, and whether it is out of range. -/
def binaryValue (negative : Bool) (digits : Nat) (power : Int) : Binary64 × Bool :=
  let length : Int := digits.log2
  let power := max (min power (1200 - length)) (-1200 - length)
  let (n, d) := Number.scaleTwo power digits 1
  Binary64.ofFraction negative n d

/-- What follows a word that a text starts with in any case. -/
def afterWord? (word : String) (s : Raw) : Option Raw :=
  if lower (s.take word.length) = word.toList then some (s.drop word.length) else none

/-- What follows the name of no number, with a remark in parentheses if there is one. -/
def afterRemark (s : Raw) : Raw :=
  match s with
  | '(' :: rest =>
    match rest.dropWhile isNameChar with
    | ')' :: rest => rest
    | _ => s
  | _ => s

/-- The number with a point that a text without blanks and sign starts with, whether it is out of
range, and what follows it. -/
def unsignedReal? (negative : Bool) (s : Raw) : Option ((Binary64 × Bool) × Raw) :=
  let hexadecimal :=
    match s with
    | '0' :: x :: digits => if x = 'x' ∨ x = 'X' then pointed? 16 digits else none
    | _ => none
  match afterWord? "infinity" s, afterWord? "inf" s, afterWord? "nan" s with
  | some rest, _, _ | _, some rest, _ => some ((.infinite negative, false), rest)
  | _, _, some rest => some ((.notANumber negative, false), afterRemark rest)
  | none, none, none =>
    match hexadecimal, pointed? 10 s with
    | some (n, places, rest), _ =>
      let (power, rest) := exponent 'p' rest
      some (binaryValue negative n (power - 4 * places), rest)
    | none, some (n, places, rest) =>
      let (power, rest) := exponent 'e' rest
      some (decimalValue negative n (power - places), rest)
    | none, none => none

/-- The number with a point that a text starts with, whether it is out of range, and what follows
it. -/
def real? (s : Raw) : Option ((Binary64 × Bool) × Raw) :=
  match s.dropWhile isSpace with
  | '-' :: cs => unsignedReal? true cs
  | '+' :: cs => unsignedReal? false cs
  | cs => unsignedReal? false cs

end KnightLang.Text.Raw
