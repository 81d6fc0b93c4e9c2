/-
The numbers of the language are the 64-bit signed integers. `fit?` admits an integer of that
range and refuses any other; `saturate` sends an integer to the nearest number.
-/
namespace KnightLang.Number

/-- The number with the given integer value, if there is one. -/
def fit? (z : Int) : Option Int64 :=
  if Int64.minValue.toInt ≤ z ∧ z ≤ Int64.maxValue.toInt then some (Int64.ofInt z) else none

/-- The number nearest to an integer. -/
def saturate (z : Int) : Int64 :=
  if z < Int64.minValue.toInt then Int64.minValue
  else if Int64.maxValue.toInt < z then Int64.maxValue
  else Int64.ofInt z

theorem toInt_bounds (n : Int64) :
    Int64.minValue.toInt ≤ n.toInt ∧ n.toInt ≤ Int64.maxValue.toInt :=
  ⟨Int64.minValue_le_toInt n, n.toInt_le⟩

theorem nonneg_iff (n : Int64) : 0 ≤ n ↔ 0 ≤ n.toInt := by
  rw [Int64.le_iff_toInt_le, Int64.toInt_zero]

theorem neg_iff (n : Int64) : n < 0 ↔ n.toInt < 0 := by
  rw [Int64.lt_iff_toInt_lt, Int64.toInt_zero]

theorem fit?_eq_some_iff {z : Int} {n : Int64} : fit? z = some n ↔ n.toInt = z := by
  unfold fit?
  constructor
  · intro h
    split at h
    · rename_i hz
      cases h
      rw [Int64.toInt_minValue, Int64.toInt_maxValue] at hz
      exact Int64.toInt_ofInt_of_le hz.1 (by omega)
    · cases h
  · rintro rfl
    rw [if_pos (toInt_bounds n), Int64.ofInt_toInt]

theorem saturate_toInt (n : Int64) : saturate n.toInt = n := by
  obtain ⟨hlow, hhigh⟩ := toInt_bounds n
  unfold saturate
  rw [if_neg (Int.not_lt.2 hlow), if_neg (Int.not_lt.2 hhigh), Int64.ofInt_toInt]

end KnightLang.Number
