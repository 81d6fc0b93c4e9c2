/-
The number that a text starts with. A text is cut into blanks, a sign, a run of decimal digits and
the rest, each part as long as can be, and the number is the value of the digits with the sign, as
far as 64 bits hold it. A run of digits in a source has one reading more, as a literal, which wants
the value to be in range. The two readings agree (`Text.decimal_readings`).
-/
import KnightLang.Proofs.Source.Counting
import Mathlib.Data.Int.ModEq

namespace KnightLang

open Source

namespace Text

/-! ## Cutting a text at its number -/

/-- The sign of a numeral, if it has one. -/
inductive Sign
  | none
  | plus
  | minus

/-- How a sign is written. -/
def Sign.chars : Sign → List Char
  | none => []
  | plus => ['+']
  | minus => ['-']

/-- The number that a sign makes of an absolute value. -/
def Sign.apply : Sign → Nat → Int
  | minus, n => -n
  | _, n => n

/-- Whether a character is a sign. -/
def isSign (c : Char) : Bool := c == '+' || c == '-'

/-- A text cut at the number that it starts with: all blanks that stand in front, one sign if there
is one, and all digits that follow. -/
structure CutAtNumber (s : String) (blanks : List Char) (sign : Sign) (digits rest : List Char) :
    Prop where
  whole : s.toList = blanks ++ (sign.chars ++ (digits ++ rest))
  blank : ∀ c ∈ blanks, isBlank c = true
  allBlanks : Stops isBlank (sign.chars ++ (digits ++ rest))
  signed : sign = .none → Stops isSign (digits ++ rest)
  digit : ∀ c ∈ digits, c.isDigit = true
  allDigits : Stops Char.isDigit rest

theorem exists_sign (cs : List Char) : ∃ sign rest, cs = Sign.chars sign ++ rest ∧
    (sign = .none → Stops isSign rest) := by
  rcases cs with _ | ⟨c, cs⟩
  · exact ⟨.none, [], rfl, fun _ => by simp [Stops]⟩
  · by_cases hplus : c = '+'
    · exact ⟨.plus, cs, by rw [hplus]; rfl, nofun⟩
    · by_cases hminus : c = '-'
      · exact ⟨.minus, cs, by rw [hminus]; rfl, nofun⟩
      · exact ⟨.none, c :: cs, rfl, fun _ => by simp [Stops, isSign, hplus, hminus]⟩

theorem exists_cutAtNumber (s : String) :
    ∃ blanks sign digits rest, CutAtNumber s blanks sign digits rest := by
  obtain ⟨sign, rest, hsign, hsigned⟩ := exists_sign (s.toList.dropWhile isBlank)
  have hdigits : rest.takeWhile Char.isDigit ++ rest.dropWhile Char.isDigit = rest :=
    List.takeWhile_append_dropWhile
  refine ⟨s.toList.takeWhile isBlank, sign, rest.takeWhile Char.isDigit,
    rest.dropWhile Char.isDigit, ?_, forall_mem_takeWhile _ _, ?_, ?_, forall_mem_takeWhile _ _,
    stops_dropWhile _ _⟩
  · rw [hdigits, ← hsign, List.takeWhile_append_dropWhile]
  · rw [hdigits, ← hsign]
    exact stops_dropWhile _ _
  · rwa [hdigits]

/-! ## Reading it -/

section
variable {digits rest : List Char}

/-- Wrapping at each digit comes to wrapping once. -/
theorem foldl_digitValue (digits : List Char) (n : Nat) :
    digits.foldl (fun acc d => acc * 10 + digitValue d) (Int64.ofNat n) =
      Int64.ofNat (Nat.ofDigitChars 10 digits n) := by
  induction digits generalizing n with
  | nil => rfl
  | cons c digits ih =>
    have step : Int64.ofNat n * 10 + digitValue c =
        Int64.ofNat (10 * n + (c.toNat - '0'.toNat)) := by
      rw [Nat.mul_comm, Int64.ofNat_add, Int64.ofNat_mul]
      rfl
    rw [List.foldl_cons, step, ih]
    rfl

theorem wrappedValue_eq (digits : List Char) :
    wrappedValue digits = Int64.ofInt (digitsValue digits) := by
  rw [Int64.ofInt_eq_ofNat]
  exact foldl_digitValue digits 0

theorem signedValue_eq {sign : Sign} (hsigned : sign = .none → Stops isSign (digits ++ rest))
    (hd : ∀ c ∈ digits, c.isDigit = true) (hr : Stops Char.isDigit rest) :
    signedValue (sign.chars ++ (digits ++ rest)) =
      Int64.ofInt (sign.apply (digitsValue digits)) := by
  have run := takeWhile_append_stops hd hr
  cases sign with
  | minus =>
    show -wrappedValue ((digits ++ rest).takeWhile Char.isDigit) = _
    rw [run, wrappedValue_eq, ← Int64.ofInt_neg]
    rfl
  | plus =>
    show wrappedValue ((digits ++ rest).takeWhile Char.isDigit) = _
    rw [run, wrappedValue_eq]
    rfl
  | none =>
    have unsigned := hsigned rfl
    show signedValue (digits ++ rest) = _
    unfold signedValue
    split
    · rename_i heq
      rw [heq] at unsigned
      exact absurd (unsigned '-' rfl) (by decide)
    · rename_i heq
      rw [heq] at unsigned
      exact absurd (unsigned '+' rfl) (by decide)
    · rw [run, wrappedValue_eq]
      rfl

theorem CutAtNumber.leadingInt_eq {s : String} {blanks : List Char} {sign : Sign}
    (h : CutAtNumber s blanks sign digits rest) :
    leadingInt s = Int64.ofInt (sign.apply (digitsValue digits)) := by
  rw [leadingInt, h.whole, dropWhile_append_stops h.blank h.allBlanks,
    signedValue_eq h.signed h.digit h.allDigits]

theorem ofInt_eq_iff {z : Int} {n : Int64} : Int64.ofInt z = n ↔ n.toInt ≡ z [ZMOD 2 ^ 64] := by
  rw [← Int64.toInt_inj, Int64.toInt_ofInt]
  constructor
  · intro h
    rw [← h]
    exact Int.bmod_emod
  · intro h
    calc z.bmod Int64.size = (z % Int64.size).bmod Int64.size := (Int.emod_bmod ..).symm
      _ = (n.toInt % Int64.size).bmod Int64.size := congrArg (Int.bmod · _) h.symm
      _ = n.toInt.bmod Int64.size := Int.emod_bmod ..
      _ = n.toInt := n.toInt_bmod_size

/-- The text form of a number is a numeral with as few signs and digits as can be. -/
theorem toText_number (n : Int64) : ∃ sign : Sign,
    (Literal.number n).toText.toList = sign.chars ++ Nat.toDigits 10 n.toInt.natAbs ∧
      sign.apply n.toInt.natAbs = n.toInt := by
  rw [Literal.toText]
  cases n.toInt with
  | ofNat k => exact ⟨.none, by simp [Int.repr, Nat.repr, Sign.chars], rfl⟩
  | negSucc k => exact ⟨.minus, by simp [Int.repr, Nat.repr, Sign.chars], rfl⟩

/-! ## Classes of characters -/

theorem isBlank_digit {c : Char} (h : c.isDigit = true) : isBlank c = false := by
  have := startsFiller_digit h
  simp only [startsFiller, isFiller, Bool.or_eq_false_iff] at this
  exact this.2.1

theorem isSign_digit {c : Char} (h : c.isDigit = true) : isSign c = false := by
  by_contra hs
  rw [Bool.not_eq_false, isSign, Bool.or_eq_true, beq_iff_eq, beq_iff_eq] at hs
  rcases hs with rfl | rfl <;> exact absurd h (by decide)

theorem stops_digits {p : Char → Bool} (hp : ∀ c, c.isDigit = true → p c = false)
    (hne : digits ≠ []) (hd : ∀ c ∈ digits, c.isDigit = true) : Stops p (digits ++ rest) := by
  obtain ⟨c, tail, rfl⟩ := List.exists_cons_of_ne_nil hne
  intro d hd'
  cases hd'
  exact hp c (hd c (List.mem_cons_self ..))

/-- Where there are digits, the parts are as long as can be. -/
theorem CutAtNumber.of_digits {s : String} {blanks : List Char} {sign : Sign}
    (whole : s.toList = blanks ++ (sign.chars ++ (digits ++ rest)))
    (blank : ∀ c ∈ blanks, isBlank c = true) (hne : digits ≠ [])
    (digit : ∀ c ∈ digits, c.isDigit = true) (allDigits : Stops Char.isDigit rest) :
    CutAtNumber s blanks sign digits rest where
  whole := whole
  blank := blank
  allBlanks := by
    cases sign with
    | none =>
      show Stops isBlank (digits ++ rest)
      exact stops_digits (fun _ => isBlank_digit) hne digit
    | plus | minus =>
      intro c hc
      cases hc
      decide
  signed _ := stops_digits (fun _ => isSign_digit) hne digit
  digit := digit
  allDigits := allDigits

theorem leadingInt_toText (n : Int64) {w r : String} (hw : ∀ c ∈ w.toList, isBlank c = true)
    (hr : Stops Char.isDigit r.toList) : leadingInt (w ++ (Literal.number n).toText ++ r) = n := by
  obtain ⟨sign, htext, happly⟩ := toText_number n
  have cut : CutAtNumber (w ++ (Literal.number n).toText ++ r) w.toList sign
      (Nat.toDigits 10 n.toInt.natAbs) r.toList := by
    refine .of_digits ?_ hw Nat.toDigits_ne_nil ?_ hr
    · simp only [String.toList_append, htext, List.append_assoc]
    · exact fun c hc => Nat.isDigit_of_mem_toDigits (by decide) (by decide) hc
  rw [cut.leadingInt_eq, digitsValue, Nat.ofDigitChars_ten_toDigits, happly, Int64.ofInt_toInt]

/-! ## Digits in a source -/

theorem leadingInt_digits (hne : digits ≠ []) (hd : ∀ c ∈ digits, c.isDigit = true) :
    leadingInt (String.ofList digits) = Int64.ofInt (digitsValue digits) := by
  have cut : CutAtNumber (String.ofList digits) [] .none digits [] :=
    .of_digits (by simp [Sign.chars]) (by simp) hne hd (by simp [Stops])
  exact cut.leadingInt_eq

theorem toInt_leadingInt_digits (hne : digits ≠ []) (hd : ∀ c ∈ digits, c.isDigit = true)
    (hfit : (digitsValue digits : Int) ≤ Int64.maxValue.toInt) :
    (digitsValue digits : Int) = (leadingInt (String.ofList digits)).toInt := by
  rw [leadingInt_digits hne hd]
  rw [Int64.toInt_maxValue] at hfit
  exact (Int64.toInt_ofInt_of_le (by omega) (by omega)).symm

variable {filler : List Char}

theorem nextLexeme_digits (hf : Filler filler) (hne : digits ≠ [])
    (hd : ∀ c ∈ digits, c.isDigit = true) (hr : Stops Char.isDigit rest) :
    nextLexeme (filler ++ digits ++ rest) =
      if (digitsValue digits : Int) ≤ Int64.maxValue.toInt then
        .token (.literal (.number (leadingInt (String.ofList digits)))) rest
      else .invalid (.numberTooLarge (String.ofList digits)) (digits ++ rest) := by
  split
  · rename_i hfit
    exact nextLexeme_of_begins (.token hf (.number hne hd (toInt_leadingInt_digits hne hd hfit)) hr)
  · rename_i hbig
    rw [List.append_assoc]
    exact nextLexeme_of_begins (.invalid hf (.numberTooLarge hne hd hr (Int.not_le.1 hbig)))

theorem parse_digits (hf : Filler filler) (hne : digits ≠ [])
    (hd : ∀ c ∈ digits, c.isDigit = true) (hr : Stops Char.isDigit rest) (t : Term String) :
    (parse (String.ofList (filler ++ digits ++ rest))).result = .ok t ↔
      (digitsValue digits : Int) ≤ Int64.maxValue.toInt ∧
        t = .lit (.number (leadingInt (String.ofList digits))) := by
  have first := nextLexeme_digits hf hne hd hr
  split at first
  · rename_i hfit
    simp only [parse, String.toList_ofList, readFrom_token first]
    simp [accept, supply, hfit, eq_comm]
  · rename_i hbig
    simp only [parse, String.toList_ofList, readFrom_invalid first]
    simp [hbig]

end

/-- Decimal numerals are read in two ways, which agree. Every text can be cut at the number
that it starts with, and that number is the one of 64 bits that is congruent to the value of the
digits with their sign; so the text form of a number is read back behind any blanks and
before anything but a digit. In a source, a run of digits is a literal if and only if its value is a
number of 64 bits, the same one, and else it is an error. -/
theorem decimal_readings :
    (∀ s, ∃ blanks sign digits rest, CutAtNumber s blanks sign digits rest) ∧
    (∀ s blanks sign digits rest, CutAtNumber s blanks sign digits rest → ∀ n,
      leadingInt s = n ↔ n.toInt ≡ sign.apply (digitsValue digits) [ZMOD 2 ^ 64]) ∧
    (∀ (n : Int64) (w r : String), (∀ c ∈ w.toList, isBlank c = true) →
      Stops Char.isDigit r.toList → leadingInt (w ++ (Literal.number n).toText ++ r) = n) ∧
    (∀ filler digits rest, Filler filler → digits ≠ [] → (∀ c ∈ digits, c.isDigit = true) →
      Stops Char.isDigit rest →
      (nextLexeme (filler ++ digits ++ rest) =
        if (digitsValue digits : Int) ≤ Int64.maxValue.toInt then
          .token (.literal (.number (leadingInt (String.ofList digits)))) rest
        else .invalid (.numberTooLarge (String.ofList digits)) (digits ++ rest)) ∧
      ∀ t, (parse (String.ofList (filler ++ digits ++ rest))).result = .ok t ↔
        (digitsValue digits : Int) ≤ Int64.maxValue.toInt ∧
          t = .lit (.number (leadingInt (String.ofList digits)))) := by
  refine ⟨exists_cutAtNumber, fun s blanks sign digits rest cut n => ?_,
    fun n w r hw hr => leadingInt_toText n hw hr,
    fun filler digits rest hf hne hd hr =>
      ⟨nextLexeme_digits hf hne hd hr, parse_digits hf hne hd hr⟩⟩
  rw [cut.leadingInt_eq]
  exact ofInt_eq_iff

/-- A numeral that 64 bits do not hold, with a sign; the least number in a text; and a literal that
starts with zeros. -/
theorem decimal_readings_at_limits :
    let overlong := "18446744073709551621".toList
    leadingInt "\t-18446744073709551621 x" = -5 ∧
    leadingInt (" " ++ (Literal.number Int64.minValue).toText ++ ".") = Int64.minValue ∧
    nextLexeme (['('] ++ overlong ++ [')']) =
      .invalid (.numberTooLarge "18446744073709551621") (overlong ++ [')']) ∧
    (parse (String.ofList (['('] ++ "007".toList ++ [')']))).result =
      .ok (.lit (.number (leadingInt "007"))) := by
  intro overlong
  have cut : CutAtNumber "\t-18446744073709551621 x" ['\t'] .minus overlong [' ', 'x'] :=
    .of_digits (by decide) (List.all_eq_true.1 (by decide)) (by decide)
      (List.all_eq_true.1 (by decide)) (by simp [Stops])
  have paren : Filler ['('] := .char (by decide) .nil
  have big := (decimal_readings.2.2.2 ['('] overlong [')'] paren (by decide)
    (List.all_eq_true.1 (by decide)) (by simp [Stops])).1
  have seven := (decimal_readings.2.2.2 ['('] "007".toList [')'] paren (by decide)
    (List.all_eq_true.1 (by decide)) (by simp [Stops])).2
  rw [if_neg (by decide), String.ofList_toList] at big
  simp only [String.ofList_toList] at seven
  exact ⟨(decimal_readings.2.1 _ _ _ _ _ cut _).2 (by decide),
    decimal_readings.2.2.1 _ _ _ (List.all_eq_true.1 (by decide)) (by simp [Stops]), big,
    (seven _).2 ⟨by decide, rfl⟩⟩

end Text

end KnightLang
