/-
The laws of parts of a text. A range within a text cuts it in three (`Text.CutAtRange`): `slice` is
the middle and `splice` puts another text in its place, so each law is about three lists of
characters. `slice` goes on where a range does not lie within the text, and clips it; `splice` does
not (`Text.splice_laws`).
-/
import KnightLang.Text.Part

namespace KnightLang

namespace Text

open Number

/-! ## Cutting a text at a range -/

/-- A text cut at the two ends of a range within it. -/
structure CutAtRange (s : String) (start length : Int64) (before part after : List Char) :
    Prop where
  whole : s.toList = before ++ (part ++ after)
  starts : (before.length : Int) = start.toInt
  long : (part.length : Int) = length.toInt

section
variable {s r u : String} {i n : Int64} {before part after : List Char}

theorem exists_cutAtRange (hi : 0 ≤ i.toInt) (hn : 0 ≤ n.toInt)
    (hend : i.toInt + n.toInt ≤ s.length) :
    ∃ before part after, CutAtRange s i n before part after := by
  rw [← String.length_toList] at hend
  refine ⟨s.toList.take i.toInt.toNat, (s.toList.drop i.toInt.toNat).take n.toInt.toNat,
    (s.toList.drop i.toInt.toNat).drop n.toInt.toNat, ?_, ?_, ?_⟩
  · rw [List.take_append_drop, List.take_append_drop]
  · rw [List.length_take]
    omega
  · rw [List.length_take, List.length_drop]
    omega

theorem CutAtRange.length_eq (h : CutAtRange s i n before part after) :
    s.length = before.length + (part.length + after.length) := by
  rw [← String.length_toList, h.whole, List.length_append, List.length_append]

theorem CutAtRange.fits (h : CutAtRange s i n before part after) :
    0 ≤ i.toInt ∧ 0 ≤ n.toInt ∧ i.toInt + n.toInt ≤ s.length := by
  have := h.length_eq
  have := h.starts
  have := h.long
  omega

/-- Behind some characters, a slice has as many characters as there are, up to its length. -/
theorem slice_append {front rest : List Char} (hs : s.toList = front ++ rest)
    (hi : (front.length : Int) = i.toInt) (hn : 0 ≤ n.toInt) :
    slice s i n = .ok (String.ofList (rest.take n.toInt.toNat)) := by
  have inRange : ¬(i < 0 ∨ n < 0) := by
    rw [neg_iff, neg_iff]
    omega
  have hfront : i.toInt.toNat = front.length := by omega
  rw [slice, if_neg inRange]
  refine congrArg Except.ok (String.toList_injective ?_)
  rw [String.toList_copy_take, String.toList_copy_drop, hs, hfront, List.drop_left,
    String.toList_ofList]

theorem CutAtRange.slice_eq (h : CutAtRange s i n before part after) :
    slice s i n = .ok (String.ofList part) := by
  have hpart : n.toInt.toNat = part.length := by
    have := h.long
    omega
  rw [slice_append h.whole h.starts h.fits.2.1, hpart, List.take_left]

theorem CutAtRange.splice_eq (h : CutAtRange s i n before part after) (r : String) :
    splice s i n r = .ok (String.ofList (before ++ (r.toList ++ after))) := by
  have fits := h.fits
  have inRange : ¬(i < 0 ∨ n < 0 ∨ s.length < i.toInt + n.toInt) := by
    rw [neg_iff, neg_iff]
    omega
  have hstart := h.starts
  have hlong := h.long
  have hbefore : i.toInt.toNat = before.length := by omega
  have hbehind : (i.toInt + n.toInt).toNat = (before ++ part).length := by
    rw [List.length_append]
    omega
  rw [splice, if_neg inRange]
  refine congrArg Except.ok (String.toList_injective ?_)
  rw [String.toList_append, String.toList_append, String.toList_copy_take, String.toList_copy_drop,
    h.whole, hbefore, hbehind, List.take_left, ← List.append_assoc before part after,
    List.drop_left, String.toList_ofList, List.append_assoc]

theorem splice_error (h : ¬(0 ≤ i.toInt ∧ 0 ≤ n.toInt ∧ i.toInt + n.toInt ≤ s.length))
    (r : String) : splice s i n r = .error (rangeFault s i n) := by
  rw [splice, if_pos]
  rw [neg_iff, neg_iff]
  omega

theorem exists_cutAtRange_of_splice (h : splice s i n r = .ok u) :
    ∃ before part after, CutAtRange s i n before part after ∧
      u.toList = before ++ (r.toList ++ after) := by
  by_cases fits : 0 ≤ i.toInt ∧ 0 ≤ n.toInt ∧ i.toInt + n.toInt ≤ s.length
  · obtain ⟨before, part, after, cut⟩ := exists_cutAtRange fits.1 fits.2.1 fits.2.2
    rw [cut.splice_eq] at h
    cases h
    exact ⟨before, part, after, cut, String.toList_ofList⟩
  · rw [splice_error fits] at h
    cases h

theorem splice_ok_iff : (∃ u, splice s i n r = .ok u) ↔
    0 ≤ i ∧ 0 ≤ n ∧ i.toInt + n.toInt ≤ s.length := by
  rw [nonneg_iff, nonneg_iff]
  constructor
  · rintro ⟨u, h⟩
    obtain ⟨_, _, _, cut, -⟩ := exists_cutAtRange_of_splice h
    exact cut.fits
  · rintro ⟨hi, hn, hend⟩
    obtain ⟨_, _, _, cut⟩ := exists_cutAtRange hi hn hend
    exact ⟨_, cut.splice_eq r⟩

theorem slice_ok_iff : (∃ part, slice s i n = .ok part) ↔ 0 ≤ i ∧ 0 ≤ n := by
  rw [nonneg_iff, nonneg_iff, slice]
  split <;> rename_i negative <;> rw [neg_iff, neg_iff] at negative
  · simp only [reduceCtorEq, exists_false, false_iff]
    omega
  · simp only [Except.ok.injEq, exists_eq', true_iff]
    omega

/-! ## Parts of a cut text -/

theorem CutAtRange.slice_before (h : CutAtRange s i n before part after) :
    slice s 0 i = .ok (String.ofList before) := by
  have whole : s.toList = [] ++ (before ++ (part ++ after)) := h.whole
  have hbefore : i.toInt.toNat = before.length := by
    have := h.starts
    omega
  rw [slice_append whole rfl h.fits.1, hbefore, List.take_left]

theorem length_le_utf8ByteSize (s : String) : s.length ≤ s.utf8ByteSize := by
  induction s using String.push_induction with
  | empty => exact Nat.le_refl 0
  | push s c ih =>
    have := c.utf8Size_pos
    rw [String.length_push, String.utf8ByteSize_push]
    omega

/-- The end of a range within a text of a size that can be is a number. -/
theorem CutAtRange.toInt_end (h : CutAtRange s i n before part after)
    (hs : s.utf8ByteSize < 0x8000000000000000) : (i + n).toInt = i.toInt + n.toInt := by
  have fits := h.fits
  have short := length_le_utf8ByteSize s
  rw [Int64.toInt_add]
  exact Int.bmod_eq_of_le (by omega) (by omega)

theorem CutAtRange.slice_after (h : CutAtRange s i n before part after)
    (hs : s.utf8ByteSize < 0x8000000000000000) {m : Int64} (hm : 0 ≤ m.toInt) :
    slice s (i + n) m = .ok (String.ofList (after.take m.toInt.toNat)) := by
  have whole : s.toList = (before ++ part) ++ after := by rw [h.whole, List.append_assoc]
  refine slice_append whole ?_ hm
  rw [h.toInt_end hs, List.length_append, ← h.starts, ← h.long]
  rfl

/-- A text is cut around what was put in place of a range. -/
theorem CutAtRange.replaced (h : CutAtRange s i n before part after)
    (hu : u.toList = before ++ (r.toList ++ after)) (hsize : u.utf8ByteSize < 0x8000000000000000) :
    CutAtRange u i (Int64.ofNat r.length) before r.toList after where
  whole := hu
  starts := h.starts
  long := by
    have short := length_le_utf8ByteSize u
    rw [← String.length_toList, hu, List.length_append, List.length_append,
      String.length_toList] at short
    rw [Int64.toInt_ofNat_of_lt (by omega), String.length_toList]

end

/-- The laws of `slice` and `splice`. A range can be replaced if and only if it lies within the
text, and it can be sliced if and only if neither its start nor its length is negative. Once a range
is replaced, the text has grown by the difference of the lengths, the replacement stands in the
range that starts where it did, and nothing before and behind it has changed. To replace a range by
what it holds changes nothing, and to replace a replacement comes to replacing the range. -/
theorem splice_laws (s r : String) (i n : Int64) :
    ((∃ u, splice s i n r = .ok u) ↔ 0 ≤ i ∧ 0 ≤ n ∧ i.toInt + n.toInt ≤ s.length) ∧
    (¬(0 ≤ i ∧ 0 ≤ n ∧ i.toInt + n.toInt ≤ s.length) →
      splice s i n r = .error (.outOfRange i (Number.saturate (i.toInt + n.toInt)) s.length)) ∧
    ((∃ part, slice s i n = .ok part) ↔ 0 ≤ i ∧ 0 ≤ n) ∧
    ∀ u, splice s i n r = .ok u →
      s.utf8ByteSize < 0x8000000000000000 → u.utf8ByteSize < 0x8000000000000000 →
      (u.length : Int) = s.length - n.toInt + r.length ∧
      slice u i (Int64.ofNat r.length) = .ok r ∧
      slice u 0 i = slice s 0 i ∧
      (∀ m, 0 ≤ m → slice u (i + Int64.ofNat r.length) m = slice s (i + n) m) ∧
      (∃ part, slice s i n = .ok part ∧ splice s i n part = .ok s) ∧
      ∀ r', splice u i (Int64.ofNat r.length) r' = splice s i n r' := by
  refine ⟨splice_ok_iff, ?_, slice_ok_iff, ?_⟩
  · rw [nonneg_iff, nonneg_iff]
    exact fun h => splice_error h r
  · intro u h hs hu
    obtain ⟨before, part, after, cut, hchars⟩ := exists_cutAtRange_of_splice h
    have new := cut.replaced hchars hu
    refine ⟨?_, ?_, ?_, ?_, ⟨_, cut.slice_eq, ?_⟩, ?_⟩
    · have hslength := cut.length_eq
      have hulength := new.length_eq
      have hlong := cut.long
      rw [String.length_toList] at hulength
      omega
    · rw [new.slice_eq, String.ofList_toList]
    · rw [new.slice_before, cut.slice_before]
    · intro m hm
      have hm := (nonneg_iff m).1 hm
      rw [new.slice_after hu hm, cut.slice_after hs hm]
    · rw [cut.splice_eq, String.toList_ofList, ← cut.whole, String.ofList_toList]
    · intro r'
      rw [new.splice_eq, cut.splice_eq]

/-- Three letters of `héllo` are replaced by two signs of three bytes each. A range that ends beyond
all numbers is reported with the greatest number as its end. -/
theorem splice_laws_hello :
    let s := "héllo"
    let u := "h⟨⟩o"
    splice s 1 3 "⟨⟩" = .ok u ∧ (u.length : Int) = 4 ∧ slice u 1 2 = .ok "⟨⟩" ∧
      slice u 0 1 = slice s 0 1 ∧ slice u 3 9 = slice s 4 9 ∧
      (∃ part, slice s 1 3 = .ok part ∧ splice s 1 3 part = .ok s) ∧
      splice u 1 2 "" = splice s 1 3 "" ∧
      splice s 2 Int64.maxValue "" = .error (.outOfRange 2 Int64.maxValue 5) := by
  intro s u
  have cut : CutAtRange s 1 3 ['h'] ['é', 'l', 'l'] ['o'] := ⟨by decide, rfl, rfl⟩
  have h : splice s 1 3 "⟨⟩" = .ok u := cut.splice_eq _
  obtain ⟨hlength, hpart, hbefore, hafter, hsame, htwice⟩ :=
    (splice_laws s "⟨⟩" 1 3).2.2.2 u h (by decide) (by decide)
  have beyond := (splice_laws s "" 2 Int64.maxValue).2.1 (by decide)
  have five : s.length = 5 := by decide
  have greatest : Number.saturate ((2 : Int64).toInt + Int64.maxValue.toInt) = Int64.maxValue := by
    decide
  rw [five, greatest] at beyond
  exact ⟨h, hlength.trans (by decide), hpart, hbefore, hafter 9 (by decide), hsame, htwice "",
    beyond⟩

end Text

end KnightLang
