/-
The laws of repeated texts. `Text.repeated` refuses a negative count and a result whose bytes no
number counts, and else is the text so many times over (`Text.copies`). Copies stand one behind the
other: a range of the text is found again in each copy, as many lengths further on as there are
copies before it, and copies of a sum are the copies of its parts (`Text.repetition_laws`).
-/
import KnightLang.Machine.Coercion
import KnightLang.Proofs.Text.Part

namespace KnightLang

namespace Text

open Number

/-! ## Copies -/

/-- A text so many times over. -/
def copies (s : String) (count : Nat) : String := count.repeat (· ++ s) ""

theorem copies_succ (s : String) (count : Nat) : copies s (count + 1) = copies s count ++ s := rfl

theorem copies_add (s : String) (a b : Nat) : copies s (a + b) = copies s a ++ copies s b := by
  induction b with
  | zero => exact String.append_empty.symm
  | succ b ih => rw [← Nat.add_assoc, copies_succ, copies_succ, ih, String.append_assoc]

theorem length_copies (s : String) (count : Nat) : (copies s count).length = count * s.length := by
  induction count with
  | zero => exact (Nat.zero_mul _).symm
  | succ count ih => rw [copies_succ, String.length_append, ih, Nat.succ_mul]

theorem utf8ByteSize_copies (s : String) (count : Nat) :
    (copies s count).utf8ByteSize = s.utf8ByteSize * count := by
  induction count with
  | zero => rfl
  | succ count ih => rw [copies_succ, String.utf8ByteSize_append, ih, Nat.mul_succ]

theorem copies_empty (count : Nat) : copies "" count = "" := by
  induction count with
  | zero => rfl
  | succ count ih => rw [copies_succ, ih, String.append_empty]

/-! ## When a text can be repeated -/

section
variable {s : String} {n : Int64}

theorem repeated_of_neg (h : n < 0) :
    repeated s n = .error (.error (.fault (.negativeRepeat n))) := if_pos h

/-- Copies that are not too large, be it only because they are empty. -/
theorem repeated_of_fits (h : 0 ≤ n) (hsize : s.utf8ByteSize * n.toInt ≤ Int64.maxValue.toInt) :
    repeated s n = .ok (copies s n.toInt.toNat) := by
  rw [repeated, if_neg (Int64.not_lt.2 h)]
  split
  · rename_i hempty
    rw [String.isEmpty_iff.1 hempty, copies_empty]
  · rw [if_neg (Int.not_lt.2 hsize)]
    rfl

theorem repeated_of_large (h : 0 ≤ n) (hsize : Int64.maxValue.toInt < s.utf8ByteSize * n.toInt) :
    repeated s n = .error .capacity := by
  have hempty : s.isEmpty = false := by
    refine Bool.eq_false_iff.2 fun hempty => ?_
    rw [String.isEmpty_iff.1 hempty, String.utf8ByteSize_empty, Int.natCast_zero,
      Int.zero_mul] at hsize
    exact absurd hsize (by decide)
  rw [repeated, if_neg (Int64.not_lt.2 h), hempty, if_neg Bool.false_ne_true, if_pos hsize]

/-- The three ways in which a repetition ends exclude each other. -/
theorem repeated_cases (s : String) (n : Int64) :
    n < 0 ∨ 0 ≤ n ∧ Int64.maxValue.toInt < s.utf8ByteSize * n.toInt ∨
      0 ≤ n ∧ s.utf8ByteSize * n.toInt ≤ Int64.maxValue.toInt := by
  rw [neg_iff, nonneg_iff]
  omega

theorem repeated_eq_negative_iff :
    repeated s n = .error (.error (.fault (.negativeRepeat n))) ↔ n < 0 := by
  refine ⟨fun h => ?_, repeated_of_neg⟩
  obtain hneg | ⟨hn, hlarge⟩ | ⟨hn, hfits⟩ := repeated_cases s n
  · exact hneg
  · rw [repeated_of_large hn hlarge] at h
    cases h
  · rw [repeated_of_fits hn hfits] at h
    cases h

theorem repeated_eq_capacity_iff : repeated s n = .error .capacity ↔
    0 ≤ n ∧ Int64.maxValue.toInt < s.utf8ByteSize * n.toInt := by
  refine ⟨fun h => ?_, fun ⟨hn, hlarge⟩ => repeated_of_large hn hlarge⟩
  obtain hneg | large | ⟨hn, hfits⟩ := repeated_cases s n
  · rw [repeated_of_neg hneg] at h
    cases h
  · exact large
  · rw [repeated_of_fits hn hfits] at h
    cases h

end

/-! ## Ranges of a copy -/

section
variable {s : String} {i l : Int64} {before part after : List Char}

/-- A range of a text is cut out of each of its copies, behind the copies before it. -/
theorem CutAtRange.copies (cut : CutAtRange s i l before part after) {k n : Nat} (hk : k < n)
    {p : Int64} (hp : p.toInt = k * s.length + i.toInt) :
    CutAtRange (copies s n) p l ((copies s k).toList ++ before) part
      (after ++ (copies s (n - (k + 1))).toList) where
  whole := by
    have split : n = k + 1 + (n - (k + 1)) := by omega
    rw [split, copies_add, copies_succ, Nat.add_sub_cancel_left, String.toList_append,
      String.toList_append, cut.whole]
    simp only [List.append_assoc]
  starts := by
    rw [List.length_append, String.length_toList, length_copies, hp, ← cut.starts, Int.natCast_add,
      Int.natCast_mul]
  long := cut.long

/-- A place in a text whose bytes a number counts is a number. -/
theorem exists_toInt_eq {t : String} (ht : t.utf8ByteSize ≤ Int64.maxValue.toInt) {z : Int}
    (hz : 0 ≤ z) (hle : z ≤ t.length) : ∃ p : Int64, p.toInt = z := by
  have short := length_le_utf8ByteSize t
  rw [Int64.toInt_maxValue] at ht
  exact ⟨Int64.ofInt z, Int64.toInt_ofInt_of_le (by omega) (by omega)⟩

/-- What stands in a range of a text stands in the same range of each copy. -/
theorem slice_copies {n k : Int64} (hsize : s.utf8ByteSize * n.toInt ≤ Int64.maxValue.toInt)
    (hk : 0 ≤ k) (hkn : k < n) (hi : 0 ≤ i) (hl : 0 ≤ l) (hend : i.toInt + l.toInt ≤ s.length) :
    ∃ p : Int64, p.toInt = k.toInt * s.length + i.toInt ∧
      ∃ part, slice (Text.copies s n.toInt.toNat) p l = .ok part ∧ slice s i l = .ok part := by
  rw [nonneg_iff] at hk hi hl
  rw [Int64.lt_iff_toInt_lt] at hkn
  obtain ⟨before, part, after, cut⟩ := exists_cutAtRange hi hl hend
  have hnat : ((k.toInt.toNat : Nat) : Int) = k.toInt := Int.toNat_of_nonneg hk
  have hless : k.toInt.toNat < n.toInt.toNat := by omega
  have bytes : (Text.copies s n.toInt.toNat).utf8ByteSize ≤ Int64.maxValue.toInt := by
    rw [utf8ByteSize_copies, Int.natCast_mul, Int.toNat_of_nonneg (by omega)]
    exact hsize
  -- The range ends at the latest where its copy does.
  have inside : k.toInt * s.length + i.toInt ≤ (Text.copies s n.toInt.toNat).length := by
    have copy : (k.toInt.toNat + 1) * s.length ≤ n.toInt.toNat * s.length :=
      Nat.mul_le_mul_right _ hless
    rw [Nat.succ_mul] at copy
    rw [length_copies, ← hnat, ← Int.natCast_mul]
    omega
  obtain ⟨p, hp⟩ := exists_toInt_eq bytes
    (Int.add_nonneg (Int.mul_nonneg hk (Int.natCast_nonneg _)) hi) inside
  refine ⟨p, hp, _, (cut.copies hless ?_).slice_eq, cut.slice_eq⟩
  rw [hp, hnat]

end

/-- Copies of a sum that are not too large. -/
theorem repeated_add {s : String} {a b : Int64} (ha : 0 ≤ a) (hb : 0 ≤ b)
    (hsum : a.toInt + b.toInt ≤ Int64.maxValue.toInt)
    (hfits : repeated s (a + b) ≠ .error .capacity) :
    ∃ x y, repeated s a = .ok x ∧ repeated s b = .ok y ∧ repeated s (a + b) = .ok (x ++ y) := by
  rw [Int64.toInt_maxValue] at hsum
  rw [nonneg_iff] at ha hb
  have exact : (a + b).toInt = a.toInt + b.toInt := by
    rw [Int64.toInt_add]
    exact Int.bmod_eq_of_le (by omega) (by omega)
  have nonneg : 0 ≤ a + b := by
    rw [nonneg_iff, exact]
    omega
  have size : s.utf8ByteSize * (a + b).toInt ≤ Int64.maxValue.toInt :=
    Int.not_lt.1 fun h => hfits (repeated_of_large nonneg h)
  have part {c : Int64} (hc : 0 ≤ c.toInt) (hle : c.toInt ≤ (a + b).toInt) :
      repeated s c = .ok (copies s c.toInt.toNat) :=
    repeated_of_fits ((nonneg_iff c).2 hc)
      (Int.le_trans (Int.mul_le_mul_of_nonneg_left hle (Int.natCast_nonneg _)) size)
  refine ⟨_, _, part ha (by omega), part hb (by omega), ?_⟩
  rw [repeated_of_fits nonneg size, exact, Int.toNat_add ha hb, copies_add]

/-! ## The operator -/

section
variable {μ ν : Type} (ev : Term ν → EvalM μ (Term ν)) (steps fuel : Nat) (m : μ)

/-- A text times a number. -/
def product (s : String) (n : Int64) : Outcome μ Literal :=
  (operate ev steps .multiply (.lit (.number n)) fuel (.lit (.text s))).run m

theorem product_eq (s : String) (n : Int64) : product ev steps fuel m s n =
    (Literal.text <$> EvalM.ofHalt (repeated s n) : EvalM μ Literal).run m := by
  cases steps <;> cases fuel <;> rfl

theorem product_eq_halted_iff {s : String} {n : Int64} {h : Halt} :
    product ev steps fuel m s n = .halted h m ↔ repeated s n = .error h := by
  rw [product_eq]
  cases hr : repeated s n with
  | ok t => exact ⟨nofun, nofun⟩
  | error e =>
    constructor
    · intro heq
      cases heq
      rfl
    · intro heq
      cases heq
      rfl

theorem product_of_ok {s t : String} {n : Int64} (h : repeated s n = .ok t) :
    product ev steps fuel m s n = .value (.text t) m := by
  rw [product_eq, h]
  rfl

/-- The laws of repetition. A text times a number fails if and only if the number is negative, and
exceeds any memory if and only if it is not and the product of the number and the bytes of the text
is beyond all numbers. Else it is a text of so many times the characters, in which each range of the
text is found again in each copy. Repeated a sum of times, a text is what it is repeated each part
of the sum. The machine is left as it was. -/
theorem repetition_laws (s : String) (n : Int64) :
    (product ev steps fuel m s n = .halted (.error (.fault (.negativeRepeat n))) m ↔ n < 0) ∧
    (product ev steps fuel m s n = .halted .capacity m ↔
      0 ≤ n ∧ Int64.maxValue.toInt < s.utf8ByteSize * n.toInt) ∧
    (0 ≤ n → s.utf8ByteSize * n.toInt ≤ Int64.maxValue.toInt →
      ∃ t, product ev steps fuel m s n = .value (.text t) m ∧
        (t.length : Int) = n.toInt * s.length ∧
        ∀ k i l : Int64, 0 ≤ k → k < n → 0 ≤ i → 0 ≤ l → i.toInt + l.toInt ≤ s.length →
          ∃ p : Int64, p.toInt = k.toInt * s.length + i.toInt ∧
            ∃ part, slice t p l = .ok part ∧ slice s i l = .ok part) ∧
    ∀ a b : Int64, 0 ≤ a → 0 ≤ b → a.toInt + b.toInt ≤ Int64.maxValue.toInt →
      repeated s (a + b) ≠ .error .capacity →
      ∃ x y, repeated s a = .ok x ∧ repeated s b = .ok y ∧ repeated s (a + b) = .ok (x ++ y) := by
  refine ⟨?_, ?_, fun hn hsize => ?_, fun a b ha hb hsum hfits => repeated_add ha hb hsum hfits⟩
  · rw [product_eq_halted_iff, repeated_eq_negative_iff]
  · rw [product_eq_halted_iff, repeated_eq_capacity_iff]
  · refine ⟨_, product_of_ok ev steps fuel m (repeated_of_fits hn hsize), ?_, ?_⟩
    · rw [length_copies, Int.natCast_mul, Int.toNat_of_nonneg ((nonneg_iff n).1 hn)]
    · intro k i l hk hkn hi hl hend
      exact slice_copies hsize hk hkn hi hl hend

end

/-- The sign of `é!` is found in the last of three copies. The bytes of too many copies are beyond
all numbers though their characters are not, and no copies of the empty text are too many. -/
theorem repetition_laws_accent :
    let times (s : String) (n : Int64) : Outcome Unit Literal :=
      product (fun t : Term String => pure t) 0 0 () s n
    times "é!" (-1) = .halted (.error (.fault (.negativeRepeat (-1)))) () ∧
    times "é!" 0x2AAAAAAAAAAAAAAB = .halted .capacity () ∧
    (∃ t, times "é!" 3 = .value (.text t) () ∧ (t.length : Int) = 6 ∧
      ∃ p : Int64, p.toInt = 5 ∧ ∃ part, slice t p 1 = .ok part ∧ slice "é!" 1 1 = .ok part) ∧
    (∃ t, times "" Int64.maxValue = .value (.text t) () ∧ (t.length : Int) = 0) ∧
    ∃ x y, repeated "é!" 1 = .ok x ∧ repeated "é!" 2 = .ok y ∧
      repeated "é!" (1 + 2) = .ok (x ++ y) := by
  intro times
  have laws (s : String) (n : Int64) := repetition_laws (fun t : Term String => pure t) 0 0 () s n
  obtain ⟨t, ht, hlength, hcopies⟩ := (laws "é!" 3).2.2.1 (by decide) (by decide)
  obtain ⟨e, he, hempty, -⟩ := (laws "" Int64.maxValue).2.2.1 (by decide) (by decide)
  refine ⟨(laws "é!" (-1)).1.2 (by decide), (laws "é!" 0x2AAAAAAAAAAAAAAB).2.1.2 (by decide),
    ⟨t, ht, hlength.trans (by decide), ?_⟩, ⟨e, he, hempty.trans (by decide)⟩, ?_⟩
  · exact hcopies 2 1 1 (by decide) (by decide) (by decide) (by decide) (by decide)
  · have fits : repeated "é!" (1 + 2) ≠ .error .capacity :=
      fun h => absurd (repeated_eq_capacity_iff.1 h) (by decide)
    exact (laws "é!" 3).2.2.2 1 2 (by decide) (by decide) (by decide) fits

end Text

end KnightLang
