/-
Numbers of 64 bits with a binary point: `m * 2 ^ e` with at most 53 bits in `m` and `e` from `-1074`
on, below `2 ^ 1024`. A fraction rounds to the nearest of them, and digits are taken from the exact
value; a tie goes to the even neighbour.
-/
namespace KnightLang.Number

/-- The quotient rounded to the nearest number, and a tie to the even one. -/
def roundDiv (num den : Nat) : Nat :=
  let q := num / den
  let r := num % den
  if 2 * r < den then q else if den < 2 * r then q + 1 else q + q % 2

/-- A fraction times a power of two. -/
def scaleTwo (e : Int) (num den : Nat) : Nat × Nat :=
  if 0 ≤ e then (num <<< e.toNat, den) else (num, den <<< (-e).toNat)

/-- A fraction times a power of ten. -/
def scaleTen (e : Int) (num den : Nat) : Nat × Nat :=
  if 0 ≤ e then (num * Nat.pow 10 e.toNat, den) else (num, den * Nat.pow 10 (-e).toNat)

/-- A number of 64 bits with a binary point. -/
inductive Binary64
  | finite (negative : Bool) (mantissa : Nat) (exponent : Int)
  | infinite (negative : Bool)
  | notANumber (negative : Bool)

namespace Binary64

def negative : Binary64 → Bool
  | finite negative .. => negative
  | infinite negative => negative
  | notANumber negative => negative

/-- The number nearest to a fraction, and whether the fraction is out of the range where numbers
have all their bits. -/
def ofFraction (negative : Bool) (num den : Nat) : Binary64 × Bool :=
  if num = 0 then (finite negative 0 0, false)
  else
    let bits : Int := (num.log2 : Int) - den.log2
    let (n, d) := scaleTwo (-bits) num den
    let top := if d ≤ n then bits else bits - 1
    let exponent := max (top - 52) (-1074)
    let (n, d) := scaleTwo (-exponent) num den
    let rounded := roundDiv n d
    let (mantissa, exponent) :=
      if rounded = 0x20000000000000 then (0x10000000000000, exponent + 1) else (rounded, exponent)
    if 1024 ≤ (mantissa.log2 : Int) + exponent then (infinite negative, true)
    else (finite negative mantissa exponent, mantissa < 0x10000000000000 && n % d ≠ 0)

/-! ## Digits -/

/-- The digits of a number, with zeros in front up to a length. -/
def padded (length n : Nat) : List Char :=
  let digits := Nat.toDigits 10 n
  List.replicate (length - digits.length) '0' ++ digits

/-- Digits with a point before the last `places` of them. -/
def pointed (places : Nat) (keepPoint : Bool) (n : Nat) : List Char :=
  let digits := padded (places + 1) n
  let whole := digits.take (digits.length - places)
  if places = 0 then whole ++ (if keepPoint then ['.'] else [])
  else whole ++ '.' :: digits.drop (digits.length - places)

/-- The absolute value with a number of places after the point. -/
def fixed (places : Nat) (keepPoint : Bool) (mantissa : Nat) (exponent : Int) : List Char :=
  let (n, d) := scaleTwo exponent (mantissa * Nat.pow 10 places) 1
  pointed places keepPoint (roundDiv n d)

/-- The first `places + 1` significant digits, and the power of ten of the first one. -/
def significant (places : Nat) (mantissa : Nat) (exponent : Int) : Nat × Int :=
  if mantissa = 0 then (0, 0)
  else
    let (n, d) := scaleTwo exponent (mantissa * Nat.pow 10 400) 1
    let power : Int := ((Nat.toDigits 10 (n / d)).length : Int) - 401
    let (n, d) := scaleTwo exponent mantissa 1
    let (n, d) := scaleTen (places - power) n d
    let digits := roundDiv n d
    if digits = Nat.pow 10 (places + 1) then (digits / 10, power + 1) else (digits, power)

/-- The mark, the sign and at least `length` digits of an exponent. -/
def exponentPart (mark : Char) (length : Nat) (e : Int) : List Char :=
  mark :: (if e < 0 then '-' else '+') :: padded length e.natAbs

/-- The absolute value with one digit before the point and a power of ten. -/
def scientific (places : Nat) (keepPoint : Bool) (mantissa : Nat) (exponent : Int) : List Char :=
  let (digits, power) := significant places mantissa exponent
  pointed places keepPoint digits ++ exponentPart 'e' 2 power

/-- A decimal without the zeros that end it after a point, nor the point if nothing follows it. -/
def trimZeros (s : List Char) : List Char :=
  if s.contains '.' then
    match s.reverse.dropWhile (· = '0') with
    | '.' :: rest => rest.reverse
    | rest => rest.reverse
  else s

/-- The absolute value with a number of significant digits, in the shorter of the two forms. -/
def general (digits : Nat) (keepZeros : Bool) (mantissa : Nat) (exponent : Int) : List Char :=
  let digits := max digits 1
  let trim (s : List Char) := if keepZeros then s else trimZeros s
  let (leading, power) := significant (digits - 1) mantissa exponent
  if -4 ≤ power ∧ power < digits then
    trim (fixed ((digits - 1 : Int) - power).toNat keepZeros mantissa exponent)
  else trim (pointed (digits - 1) keepZeros leading) ++ exponentPart 'e' 2 power

/-- The absolute value in base sixteen with a power of two, with all its digits or a number of
places. -/
def hexadecimal (places : Option Nat) (keepPoint : Bool) (mantissa : Nat) (exponent : Int) :
    List Char :=
  let shift := if mantissa = 0 then 0 else min (52 - mantissa.log2) (exponent + 1074).toNat
  let scaled := mantissa <<< shift
  let power := if mantissa = 0 then 0 else exponent - shift + 52
  let (whole, fraction) :=
    match places with
    | none =>
      let digits := Nat.toDigits 16 (scaled % 0x10000000000000)
      let all := List.replicate (13 - digits.length) '0' ++ digits
      (scaled / 0x10000000000000, (all.reverse.dropWhile (· = '0')).reverse)
    | some p =>
      let kept := min p 13
      let rounded := roundDiv scaled (1 <<< (4 * (13 - kept)))
      let digits := Nat.toDigits 16 (rounded % (1 <<< (4 * kept)))
      let all := List.replicate (kept - digits.length) '0' ++ digits
      (rounded / (1 <<< (4 * kept)),
        (if kept = 0 then [] else all) ++ List.replicate (p - kept) '0')
  let point := if fraction.isEmpty ∧ ¬keepPoint then [] else ['.']
  ['0', 'x'] ++ Nat.toDigits 16 whole ++ point ++ fraction ++ exponentPart 'p' 1 power

end Binary64

end KnightLang.Number
