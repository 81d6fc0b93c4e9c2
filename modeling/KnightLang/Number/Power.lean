/-
Powers of numbers. `exactPower?` squares and multiplies with a range check at every product, so
it answers only with the exact power. Where it has no answer (a negative exponent, or a power beyond
64 bits), base and exponent are rounded to 53 significant bits, the power is taken with a binary
point (`powerBy`), and what comes out is truncated toward zero and saturated. The exponent counts
only as it is rounded, so exponents of `2 ^ 53` and more in size count as even.
-/
import KnightLang.Number.Binary64
import KnightLang.Number.Range

namespace KnightLang.Number

/-! ## Exact powers -/

/-- The product of two numbers, if it is a number. -/
def product? (a b : Int64) : Option Int64 := fit? (a.toInt * b.toInt)

/-- `acc` times the powers of `base` that the binary digits of `exponent` above the last ask
for: `acc * base ^ (exponent - exponent % 2)`. -/
def accumulate? (acc base : Int64) (exponent : Nat) : Option Int64 :=
  if h : exponent ≤ 1 then some acc
  else do
    let base ← product? base base
    let acc ← if exponent / 2 % 2 = 1 then product? acc base else some acc
    accumulate? acc base (exponent / 2)
termination_by exponent

/-- `base ^ exponent`, if every product on the way to it is a number. -/
def exactPower? (base : Int64) (exponent : Nat) : Option Int64 :=
  if h : exponent = 0 then some 1
  else if exponent % 2 = 0 then do
    let base ← product? base base
    exactPower? base (exponent / 2)
  else accumulate? base base exponent
termination_by exponent

/-! ## Powers beyond the exact range -/

/-- The integer of at most `bits` significant bits nearest to `n`, of two the even one. -/
def roundNat (bits n : Nat) : Nat :=
  let unit := 1 <<< (n.log2 + 1 - bits)
  let quotient := n / unit
  let twice := 2 * (n % unit)
  if twice < unit ∨ (twice = unit ∧ quotient % 2 = 0) then quotient * unit
  else (quotient + 1) * unit

/-- The integer of at most 53 significant bits nearest to `z`, of two the even one. -/
def roundInt (z : Int) : Int := z.sign * roundNat 53 z.natAbs

/-- A number with a binary point, truncated toward zero and saturated; zero for what is no number. -/
def Binary64.truncate : Binary64 → Int64
  | finite negative mantissa exponent =>
    let (num, den) := scaleTwo exponent mantissa 1
    let size : Int := Int.ofNat (num / den)
    saturate (if negative then -size else size)
  | infinite negative => if negative then Int64.minValue else Int64.maxValue
  | notANumber _ => 0

/-- `base ^ exponent` where `pow` gives powers with a binary point: exact if the exponent is no less
than zero and the power is a number, else a rounded power of the rounded base and exponent. -/
def powerBy (pow : Int → Int → Binary64) (base exponent : Int64) : Int64 :=
  let exact := if exponent < 0 then none else exactPower? base exponent.toInt.toNat
  exact.getD (pow (roundInt base.toInt) (roundInt exponent.toInt)).truncate

/-- The power of two whole numbers, rounded to nearest. An exponent beyond 1100 in size makes the
power of any base but 1, 0 and -1 too large, or smaller than half of the least number above zero. -/
def wholePower (base exponent : Int) : Binary64 :=
  let negative := decide (base < 0 ∧ exponent % 2 = 1)
  let size := base.natAbs
  if exponent = 0 ∨ size = 1 then .finite negative 1 0
  else if size = 0 then if exponent < 0 then .infinite false else .finite false 0 0
  else if exponent < -1100 then .finite negative 0 0
  else if 1100 < exponent then .infinite negative
  else if exponent < 0 then (Binary64.ofFraction negative 1 (Nat.pow size exponent.natAbs)).1
  else (Binary64.ofFraction negative (Nat.pow size exponent.natAbs) 1).1

/-- `base ^ exponent`: exact where the exponent is no less than zero and the power is a number,
else truncated toward zero and saturated. -/
def power (base exponent : Int64) : Int64 := powerBy wholePower base exponent

end KnightLang.Number
