/-
Exact powers. Square and multiply with a range check at every product answers if and only if the
power is a number (`Number.exactPower?_eq_fit?`), although it computes squares on the way that are
no part of the power it is asked for. A square that is used divides the power, so it is no greater
in size; and where the power is the least number, whose negation is no number, the square would have
to be `2 ^ 63`, which is no square. A factor that is left out of the accumulator is never used.
-/
import KnightLang.Number.Arith
import Mathlib.Tactic.Linarith
import Mathlib.Tactic.Ring

namespace KnightLang.Number

/-! ## Range checks -/

/-- The integers that are numbers. -/
def InRange (z : Int) : Prop := Int64.minValue.toInt ≤ z ∧ z ≤ Int64.maxValue.toInt

theorem inRange_iff {z : Int} :
    InRange z ↔ -9223372036854775808 ≤ z ∧ z ≤ 9223372036854775807 := by
  unfold InRange
  rw [Int64.toInt_minValue, Int64.toInt_maxValue]
  norm_num

theorem fit?_isSome_iff {z : Int} : (fit? z).isSome = true ↔ InRange z := by
  unfold fit? InRange
  split <;> simp_all

theorem fit?_eq_none {z : Int} (h : ¬InRange z) : fit? z = none := if_neg h

theorem fit?_toInt (n : Int64) : fit? n.toInt = some n := fit?_eq_some_iff.2 rfl

theorem product?_eq_some_iff {a b c : Int64} : product? a b = some c ↔ c.toInt = a.toInt * b.toInt :=
  fit?_eq_some_iff

theorem product?_eq_none_iff {a b : Int64} : product? a b = none ↔ ¬InRange (a.toInt * b.toInt) := by
  rw [← fit?_isSome_iff, Option.not_isSome_iff_eq_none]
  rfl

/-! ## Factors of a number -/

/-- A factor is in range if the other one is positive. -/
theorem InRange.of_mul_pos {z s : Int} (h : InRange (z * s)) (hs : 0 < s) : InRange z := by
  rw [inRange_iff] at h ⊢
  rcases Int.le_total 0 z with hz | hz
  · have := le_mul_of_one_le_right hz (Int.add_one_le_iff.2 hs)
    omega
  · have : z * s ≤ z := by nlinarith
    omega

/-- The size of the least number is no square. -/
theorem mul_self_ne_bound (x : Int) : x * x ≠ 9223372036854775808 := by
  intro h
  have low : -3037000500 < x := by nlinarith
  have high : x < 3037000500 := by nlinarith
  nlinarith

/-- A factor that is a square is in range. -/
theorem InRange.square {z x : Int} (h : InRange (z * (x * x))) (hz : z ≠ 0) : InRange (x * x) := by
  have nonneg := mul_self_nonneg x
  have bound := mul_self_ne_bound x
  rw [inRange_iff] at h ⊢
  rcases Int.lt_or_gt_of_ne hz with neg | pos
  · have : z * (x * x) ≤ -(x * x) := by nlinarith
    omega
  · have := le_mul_of_one_le_left nonneg (Int.add_one_le_iff.2 pos)
    omega

/-! ## Square and multiply -/

/-- A power of at least one factor. -/
theorem pow_pred_mul {s : Int} {k : Nat} (hk : 0 < k) : s * s ^ (k - 1) = s ^ k := by
  obtain ⟨k, rfl⟩ := Nat.exists_eq_add_of_lt hk
  rw [Nat.zero_add, Nat.add_sub_cancel, pow_succ']

theorem square_pow_half {x : Int} {n : Nat} : (x * x) ^ (n / 2) = x ^ (n - n % 2) := by
  have half : n - n % 2 = 2 * (n / 2) := by omega
  rw [half, pow_mul, pow_two]

/-- If a product with a power of a square is in range, so is the square and the product with one
square. -/
theorem InRange.square_of_pow {z x : Int} {k : Nat} (h : InRange (z * (x * x) ^ k)) (hk : 0 < k)
    (hz : z = 0 → x = 0) : InRange (x * x) ∧ InRange (z * (x * x)) := by
  by_cases hx : x = 0
  · subst hx
    simp [inRange_iff]
  · have pos : 0 < x * x := mul_self_pos.2 hx
    rw [← pow_pred_mul hk, ← mul_assoc] at h
    have once := h.of_mul_pos (pow_pos pos _)
    exact ⟨once.square fun h => hx (hz h), once⟩

/-- The loop multiplies the accumulator by what is missing in it, and answers if and only if the
product is a number. What has to hold of base and accumulator is that a base other than zero has not
been lost by an accumulator that is zero. -/
theorem accumulate?_eq_fit? {acc base : Int64} (n : Nat) (h : acc.toInt = 0 → base.toInt = 0) :
    accumulate? acc base n = fit? (acc.toInt * base.toInt ^ (n - n % 2)) := by
  induction n using Nat.strong_induction_on generalizing acc base with
  | h n ih =>
  unfold accumulate?
  split
  · have none_missing : n - n % 2 = 0 := by omega
    rw [none_missing, pow_zero, mul_one, fit?_toInt]
  · rename_i hn
    have hk : 0 < n / 2 := by omega
    rw [← square_pow_half]
    cases hsquare : product? base base with
    | none =>
      have out := product?_eq_none_iff.1 hsquare
      exact (fit?_eq_none fun hin => out (hin.square_of_pow hk h).1).symm
    | some square =>
      have square_eq := product?_eq_some_iff.1 hsquare
      have square_zero : acc.toInt = 0 → square.toInt = 0 := by
        intro hacc
        rw [square_eq, h hacc, zero_mul]
      show (do
        let acc ← if n / 2 % 2 = 1 then product? acc square else some acc
        accumulate? acc square (n / 2)) = _
      split
      · rename_i odd
        cases hproduct : product? acc square with
        | none =>
          have out := product?_eq_none_iff.1 hproduct
          rw [square_eq] at out
          exact (fit?_eq_none fun hin => out (hin.square_of_pow hk h).2).symm
        | some product =>
          have product_eq := product?_eq_some_iff.1 hproduct
          have product_zero : product.toInt = 0 → square.toInt = 0 := by
            intro hproduct
            rw [product_eq] at hproduct
            exact (mul_eq_zero.1 hproduct).elim square_zero id
          show accumulate? product square (n / 2) = _
          rw [ih (n / 2) (by omega) product_zero, product_eq, square_eq, odd, mul_assoc,
            pow_pred_mul hk]
      · rename_i even
        show accumulate? acc square (n / 2) = _
        have all : n / 2 - n / 2 % 2 = n / 2 := by omega
        rw [ih (n / 2) (by omega) square_zero, square_eq, all]

/-- Square and multiply answers with the power if it is a number, and else not at all. -/
theorem exactPower?_eq_fit? (base : Int64) (n : Nat) :
    exactPower? base n = fit? (base.toInt ^ n) := by
  induction n using Nat.strong_induction_on generalizing base with
  | h n ih =>
  unfold exactPower?
  split
  · rename_i zero
    rw [zero, pow_zero]
    exact (fit?_toInt 1).symm
  · split
    · rename_i hn even
      have half : base.toInt ^ n = (base.toInt * base.toInt) ^ (n / 2) := by
        rw [square_pow_half, even, Nat.sub_zero]
      rw [half]
      cases hsquare : product? base base with
      | none =>
        have out := product?_eq_none_iff.1 hsquare
        refine (fit?_eq_none fun hin => ?_).symm
        rw [← one_mul (_ ^ _)] at hin
        exact out (hin.square_of_pow (by omega) (by simp)).1
      | some square =>
        show exactPower? square (n / 2) = _
        rw [ih (n / 2) (by omega), product?_eq_some_iff.1 hsquare]
    · rename_i hn odd
      have rest : n - n % 2 = n - 1 := by omega
      rw [accumulate?_eq_fit? n id, rest, pow_pred_mul (by omega)]

/-- A power is exact whenever it can be. -/
theorem powerBy_of_inRange (pow : Int → Int → Binary64) {b e : Int64} (he : 0 ≤ e.toInt)
    (h : InRange (b.toInt ^ e.toInt.toNat)) :
    (powerBy pow b e).toInt = b.toInt ^ e.toInt.toNat := by
  have nonneg : ¬e < 0 := by
    rw [neg_iff]
    omega
  obtain ⟨z, hz⟩ := Option.isSome_iff_exists.1 (fit?_isSome_iff.2 h)
  unfold powerBy
  rw [if_neg nonneg, exactPower?_eq_fit?, hz]
  exact fit?_eq_some_iff.1 hz

/-- Powers are exact whenever they can be: square and multiply answers if and only if the power is a
number, for every base and every exponent, and then `^` gives this power, whatever would be taken
for it otherwise. -/
theorem power_exact (b e : Int64) (n : Nat) :
    ((exactPower? b n).isSome = true ↔ InRange (b.toInt ^ n)) ∧
    (∀ z, exactPower? b n = some z → z.toInt = b.toInt ^ n) ∧
    (0 ≤ e → InRange (b.toInt ^ e.toInt.toNat) →
      (∀ pow, (powerBy pow b e).toInt = b.toInt ^ e.toInt.toNat) ∧
      ∃ z, Arith.eval .power b e = .ok z ∧ z.toInt = b.toInt ^ e.toInt.toNat) := by
  refine ⟨?_, ?_, ?_⟩
  · rw [exactPower?_eq_fit?, fit?_isSome_iff]
  · intro z hz
    rw [exactPower?_eq_fit?] at hz
    exact fit?_eq_some_iff.1 hz
  · intro he h
    have nonneg := (nonneg_iff e).1 he
    exact ⟨fun pow => powerBy_of_inRange pow nonneg h, _, rfl,
      powerBy_of_inRange wholePower nonneg h⟩

/-- The least number is a power of -2, and takes squares up to `2 ^ 32`. An exponent that is the
greatest number takes 62 squares. -/
theorem power_exact_at_limits :
    (exactPower? (-2) 63).isSome = true ∧
      Arith.eval .power (-2) 63 = .ok Int64.minValue ∧
      Arith.eval .power (-1) Int64.maxValue = .ok (-1) := by
  have least : InRange ((-2 : Int64).toInt ^ (63 : Int64).toInt.toNat) := by
    rw [inRange_iff]
    decide
  have odd : (-1 : Int64).toInt ^ Int64.maxValue.toInt.toNat = -1 :=
    Odd.neg_one_pow (by decide)
  have unit : InRange ((-1 : Int64).toInt ^ Int64.maxValue.toInt.toNat) := by
    rw [odd, inRange_iff]
    decide
  obtain ⟨answers, -, fits⟩ := power_exact (-2) 63 63
  obtain ⟨-, z, hz, hpower⟩ := fits (by decide) least
  obtain ⟨-, y, hy, hunit⟩ := (power_exact (-1) Int64.maxValue 0).2.2 (by decide) unit
  refine ⟨answers.2 least, hz.trans (congrArg _ (Int64.toInt_inj.1 ?_)),
    hy.trans (congrArg _ (Int64.toInt_inj.1 ?_))⟩
  · rw [hpower]
    decide
  · rw [hunit, odd]
    decide

end KnightLang.Number
