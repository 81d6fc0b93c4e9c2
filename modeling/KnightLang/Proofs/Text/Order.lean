/-
The order of texts is the order of their characters. UTF-8 was made so: a character with a greater
scalar value has a greater byte where the two encodings part, whatever comes behind them
(`Text.compare_encodeChar`), and neither encoding starts the other. So comparing texts byte by byte
and comparing them character by character comes to the same (`Text.byteOrder_eq_compare`).
-/
import KnightLang.Text.Order

namespace KnightLang.Text

/-! ## The bytes of a character -/

section
variable {c d : Char}

/-- The scalar value of a character is cut into digits of six bits. The first byte holds the highest
one and tells how many bytes follow, and each of them holds one more digit. -/
theorem encodeChar_cases (c : Char) :
    (c.toNat < 0x80 ∧ String.utf8EncodeChar c = [.ofNat c.toNat]) ∨
    (∃ p q, c.toNat = 64 * p + q ∧ 2 ≤ p ∧ p < 0x20 ∧ q < 0x40 ∧
      String.utf8EncodeChar c = [.ofNat (p + 0xc0), .ofNat (q + 0x80)]) ∨
    (∃ p q r, c.toNat = 4096 * p + 64 * q + r ∧ 0x20 ≤ 64 * p + q ∧ p < 0x10 ∧ q < 0x40 ∧ r < 0x40 ∧
      String.utf8EncodeChar c = [.ofNat (p + 0xe0), .ofNat (q + 0x80), .ofNat (r + 0x80)]) ∨
    (∃ p q r s, c.toNat = 262144 * p + 4096 * q + 64 * r + s ∧ 0x10 ≤ 64 * p + q ∧
      p < 8 ∧ q < 0x40 ∧ r < 0x40 ∧ s < 0x40 ∧
      String.utf8EncodeChar c =
        [.ofNat (p + 0xf0), .ofNat (q + 0x80), .ofNat (r + 0x80), .ofNat (s + 0x80)]) := by
  have valid : c.toNat < 0x110000 := by
    rcases c.valid with h | h <;> simp only [Char.toNat] <;> omega
  unfold String.utf8EncodeChar
  simp only [Char.toNat] at valid ⊢
  generalize c.val.toNat = v at valid ⊢
  split
  · exact .inl ⟨by omega, rfl⟩
  · split
    · refine .inr (.inl ⟨v / 64, v % 64, by omega, by omega, by omega, by omega, ?_⟩)
      rw [Nat.mod_eq_of_lt (a := v / 64) (by omega)]
    · split
      · refine .inr (.inr (.inl ⟨v / 4096, v / 64 % 64, v % 64, by omega, by omega, by omega,
          by omega, by omega, ?_⟩))
        rw [Nat.mod_eq_of_lt (a := v / 4096) (by omega)]
      · refine .inr (.inr (.inr ⟨v / 262144, v / 4096 % 64, v / 64 % 64, v % 64, by omega, by omega,
          by omega, by omega, by omega, by omega, ?_⟩))
        rw [Nat.mod_eq_of_lt (a := v / 262144) (by omega)]

theorem compare_cons_eq_lt {x y : UInt8} {xs ys : List UInt8} :
    compare (x :: xs) (y :: ys) = .lt ↔
      x.toNat < y.toNat ∨ x.toNat = y.toNat ∧ compare xs ys = .lt := by
  rw [List.compare_cons_cons, Ordering.then_eq_lt, Std.compare_eq_lt,
    Std.LawfulEqOrd.compare_eq_iff_eq, UInt8.lt_iff_toNat_lt, UInt8.toNat_inj]

/-- The encoding of a character comes before that of a greater one. -/
theorem compare_encodeChar (h : c.toNat < d.toNat) (r s : List UInt8) :
    compare (String.utf8EncodeChar c ++ r) (String.utf8EncodeChar d ++ s) = .lt := by
  -- An encoding that is shorter has a lesser first byte; of two equally long ones, the bytes are
  -- compared from the highest bits of the scalar value down to the lowest.
  rcases encodeChar_cases c with ⟨hc, ec⟩ | ⟨_, _, hc, _, _, _, ec⟩ | ⟨_, _, _, hc, _, _, _, _, ec⟩ |
      ⟨_, _, _, _, hc, _, _, _, _, _, ec⟩ <;>
    rcases encodeChar_cases d with ⟨hd, ed⟩ | ⟨_, _, hd, _, _, _, ed⟩ |
        ⟨_, _, _, hd, _, _, _, _, ed⟩ | ⟨_, _, _, _, hd, _, _, _, _, _, ed⟩ <;>
    rw [ec, ed] <;>
    simp only [List.cons_append, List.nil_append, compare_cons_eq_lt, UInt8.toNat_ofNat'] <;>
    omega

end

/-! ## The bytes of a text -/

theorem compare_append_left (p xs ys : List UInt8) :
    compare (p ++ xs) (p ++ ys) = compare xs ys := by
  induction p with
  | nil => rfl
  | cons b p ih =>
    rw [List.cons_append, List.cons_append, List.compare_cons_cons, Std.ReflOrd.compare_self, ih]
    rfl

theorem compare_encoded (cs ds : List Char) :
    compare (cs.flatMap String.utf8EncodeChar) (ds.flatMap String.utf8EncodeChar) =
      compare (cs.map Char.toNat) (ds.map Char.toNat) := by
  induction cs generalizing ds with
  | nil =>
    cases ds with
    | nil => rfl
    | cons d ds =>
      obtain ⟨b, bs, hd⟩ := List.exists_cons_of_ne_nil (String.utf8EncodeChar_ne_nil (c := d))
      rw [List.flatMap_cons, hd]
      rfl
  | cons c cs ih =>
    cases ds with
    | nil =>
      obtain ⟨b, bs, hc⟩ := List.exists_cons_of_ne_nil (String.utf8EncodeChar_ne_nil (c := c))
      rw [List.flatMap_cons, hc]
      rfl
    | cons d ds =>
      rw [List.flatMap_cons, List.flatMap_cons, List.map_cons, List.map_cons,
        List.compare_cons_cons]
      rcases Nat.lt_trichotomy c.toNat d.toNat with h | h | h
      · rw [compare_encodeChar h, Nat.compare_eq_lt.2 h]
        rfl
      · rw [Char.toNat_inj.1 h, compare_append_left, ih, Nat.compare_eq_eq.2 rfl]
        rfl
      · rw [Std.OrientedOrd.eq_swap, compare_encodeChar h, Nat.compare_eq_gt.2 h]
        rfl

theorem bytes_eq_flatMap (s : String) : bytes s = s.toList.flatMap String.utf8EncodeChar := by
  have encoded : (String.ofList s.toList).toByteArray.data.toList =
      s.toList.flatMap String.utf8EncodeChar := List.toList_data_toByteArray
  rwa [String.ofList_toList] at encoded

/-- Texts have the order of their sequences of scalar values. -/
theorem byteOrder_eq_compare (s t : String) :
    byteOrder s t = compare (s.toList.map Char.toNat) (t.toList.map Char.toNat) := by
  unfold byteOrder
  rw [bytes_eq_flatMap, bytes_eq_flatMap, compare_encoded]

theorem bytes_injective {s t : String} (h : bytes s = bytes t) : s = t :=
  String.toByteArray_inj.1 (ByteArray.ext (Array.toList_inj.1 h))

instance : Std.TransCmp byteOrder where
  eq_swap := Std.OrientedOrd.eq_swap
  isLE_trans := Std.TransOrd.isLE_trans

instance : Std.LawfulEqCmp byteOrder where
  compare_self := Std.ReflOrd.compare_self
  eq_of_compare h := bytes_injective (Std.LawfulEqCmp.eq_of_compare h)

end KnightLang.Text
