/-
How tokens are written, without the scanners that read them. `Spells` lists the spellings of each
token, `Token.goesOn` says which characters would prolong one, and `Flawed` says in front of what
no token is found. The scanners decide exactly this: they take the longest spelling in front of a
source, and at most one of them does not decline.
-/
import KnightLang.Proofs.Source.Filler
import KnightLang.Source.Token
import Mathlib.Data.List.TakeWhile

namespace KnightLang

/-! ## Spellings -/

namespace Source

/-- The ways to write a token. -/
inductive Spells : Token → List Char → Prop
  /-- A run of digits, which may start with zeros. -/
  | number {n : Int64} {digits : List Char} : digits ≠ [] → (∀ c ∈ digits, c.isDigit = true) →
      (Text.digitsValue digits : Int) = n.toInt → Spells (.literal (.number n)) digits
  | truth {b : Bool} {tail : List Char} : (∀ c ∈ tail, isKeywordTail c = true) →
      Spells (.literal (.bool b)) ((if b then 'T' else 'F') :: tail)
  | null {tail : List Char} : (∀ c ∈ tail, isKeywordTail c = true) →
      Spells (.literal .null) ('N' :: tail)
  | text {quote : Char} {text : List Char} : isQuote quote = true → quote ∉ text →
      Spells (.literal (.text (String.ofList text))) (quote :: text ++ [quote])
  | name {c : Char} {tail : List Char} : isNameStart c = true → (∀ d ∈ tail, isNameTail d = true) →
      Spells (.name (String.ofList (c :: tail))) (c :: tail)
  /-- A tag, which has a tail only if it is a capital letter. -/
  | builtin {f : Builtin} {tail : List Char} : (∀ c ∈ tail, isKeywordTail c = true) →
      (f.tag.isUpper = false → tail = []) → Spells (.builtin f) (f.tag :: tail)

/-- Whether a source does not start with a character of a class. -/
def Stops (p : Char → Bool) (rest : List Char) : Prop := ∀ c ∈ rest.head?, p c = false

end Source

/-- Whether a character right behind a token would belong to the token. -/
def Token.goesOn : Token → Char → Bool
  | .literal (.number _), c => c.isDigit
  | .literal (.text _), _ => false
  | .literal _, c => Source.isKeywordTail c
  | .name _, c => Source.isNameTail c
  | .builtin f, c => f.tag.isUpper && Source.isKeywordTail c

namespace Source

/-- Whether a character neither starts a token nor is filler. -/
structure StartsNothing (c : Char) : Prop where
  filler : startsFiller c = false
  digit : c.isDigit = false
  keyword : c ≠ 'T' ∧ c ≠ 'F' ∧ c ≠ 'N'
  quote : isQuote c = false
  name : isNameStart c = false
  tag : ∀ f : Builtin, f.tag ≠ c

/-- Where no token starts, and what is wrong there. -/
inductive Flawed : List Char → Flaw → Prop
  | unknownCharacter {c : Char} {cs : List Char} : StartsNothing c →
      Flawed (c :: cs) (.unknownCharacter c)
  | unclosedText {quote : Char} {cs : List Char} : isQuote quote = true → quote ∉ cs →
      Flawed (quote :: cs) .unclosedText
  | numberTooLarge {digits rest : List Char} : digits ≠ [] → (∀ c ∈ digits, c.isDigit = true) →
      Stops Char.isDigit rest → Int64.maxValue.toInt < Text.digitsValue digits →
      Flawed (digits ++ rest) (.numberTooLarge (String.ofList digits))

/-! ## Runs of a class of characters -/

variable {p : Char → Bool} {word rest : List Char}

theorem stops_dropWhile (p : Char → Bool) (cs : List Char) : Stops p (cs.dropWhile p) := by
  intro c hc
  have := List.head?_dropWhile_not p cs
  rw [Option.mem_def] at hc
  rw [hc] at this
  simpa using this

theorem takeWhile_append_stops (hw : ∀ c ∈ word, p c = true) (hr : Stops p rest) :
    (word ++ rest).takeWhile p = word := by
  rw [List.takeWhile_append_of_pos hw]
  cases rest with
  | nil => simp
  | cons c rest =>
    rw [List.takeWhile_cons, hr c rfl]
    simp

theorem dropWhile_append_stops (hw : ∀ c ∈ word, p c = true) (hr : Stops p rest) :
    (word ++ rest).dropWhile p = rest := by
  rw [List.dropWhile_append_of_pos hw]
  cases rest with
  | nil => rfl
  | cons c rest =>
    rw [List.dropWhile_cons, hr c rfl]
    simp

theorem forall_mem_takeWhile (p : Char → Bool) (cs : List Char) :
    ∀ c ∈ cs.takeWhile p, p c = true := by
  intro c hc
  have := List.all_takeWhile (p := p) (l := cs)
  rw [List.all_eq_true] at this
  exact this c hc

/-! ## Classes of characters -/

theorem startsFiller_toNat {c : Char} (h : startsFiller c = true) :
    c.toNat ≤ 41 ∨ c.toNat = 58 ∨ c.toNat = 91 ∨ c.toNat = 93 ∨ c.toNat = 123 ∨ c.toNat = 125 ∨
      133 ≤ c.toNat := by
  simp only [startsFiller, isFiller, Text.isBlank, Text.blankRanges, punctuation, List.any_cons,
    List.any_nil, List.contains_cons, List.contains_nil, Bool.or_eq_true, Bool.and_eq_true,
    decide_eq_true_eq, beq_iff_eq, Bool.or_false] at h
  rcases h with rfl | h | h
  · decide
  · omega
  · rcases h with rfl | rfl | rfl | rfl | rfl | rfl | rfl <;> decide

theorem isUpper_toNat {c : Char} (h : c.isUpper = true) : 65 ≤ c.toNat ∧ c.toNat ≤ 90 := by
  have range : c.val ≥ 'A'.val ∧ c.val ≤ 'Z'.val := of_decide_eq_true h
  rw [ge_iff_le, UInt32.le_iff_toNat_le, UInt32.le_iff_toNat_le] at range
  exact range

theorem isKeywordTail_toNat {c : Char} (h : isKeywordTail c = true) :
    48 ≤ c.toNat ∧ c.toNat ≤ 57 ∨ 65 ≤ c.toNat ∧ c.toNat ≤ 90 ∨ c.toNat = 95 := by
  simp only [isKeywordTail, Bool.or_eq_true, beq_iff_eq] at h
  rcases h with (h | h) | rfl
  · exact .inr (.inl (isUpper_toNat h))
  · exact .inl (Char.isDigit_iff_toNat.1 h)
  · decide

theorem isNameStart_toNat {c : Char} (h : isNameStart c = true) :
    c.toNat = 95 ∨ 97 ≤ c.toNat ∧ c.toNat ≤ 122 := by
  simp only [isNameStart, Bool.or_eq_true, beq_iff_eq] at h
  rcases h with h | rfl
  · have h : (decide (c.val ≥ 'a'.val) && decide (c.val ≤ 'z'.val)) = true := h
    rw [Bool.and_eq_true, decide_eq_true_eq, decide_eq_true_eq] at h
    rw [ge_iff_le, UInt32.le_iff_toNat_le, UInt32.le_iff_toNat_le] at h
    exact .inr h
  · decide

theorem isNameTail_toNat {c : Char} (h : isNameTail c = true) :
    48 ≤ c.toNat ∧ c.toNat ≤ 57 ∨ c.toNat = 95 ∨ 97 ≤ c.toNat ∧ c.toNat ≤ 122 := by
  simp only [isNameTail, Bool.or_eq_true] at h
  rcases h with h | h
  · exact .inr (isNameStart_toNat h)
  · exact .inl (Char.isDigit_iff_toNat.1 h)

/-- Filler ends every token in front of it. -/
theorem goesOn_of_startsFiller {c : Char} (h : startsFiller c = true) (token : Token) :
    token.goesOn c = false := by
  have hc := startsFiller_toNat h
  have hdigit : c.isDigit = false := by
    by_contra hd
    have : 48 ≤ c.toNat ∧ c.toNat ≤ 57 := Char.isDigit_iff_toNat.1 (by simpa using hd)
    omega
  have hkeyword : isKeywordTail c = false := by
    by_contra hk
    have := isKeywordTail_toNat (by simpa using hk : isKeywordTail c = true)
    omega
  have hname : isNameTail c = false := by
    by_contra hn
    have := isNameTail_toNat (by simpa using hn : isNameTail c = true)
    omega
  rcases token with (_ | _ | _ | _) | _ | _ <;> simp [Token.goesOn, hdigit, hkeyword, hname]

/-! ## First characters -/

/-- The tag of a builtin is none of the characters that start something else. -/
theorem tag_class (f : Builtin) : startsFiller f.tag = false ∧ f.tag.isDigit = false ∧
    f.tag ≠ 'T' ∧ f.tag ≠ 'F' ∧ f.tag ≠ 'N' ∧ isQuote f.tag = false ∧
    isNameStart f.tag = false := by
  have h : ∀ f ∈ Builtin.all, startsFiller f.tag = false ∧ f.tag.isDigit = false ∧
      f.tag ≠ 'T' ∧ f.tag ≠ 'F' ∧ f.tag ≠ 'N' ∧ isQuote f.tag = false ∧
      isNameStart f.tag = false := by decide
  exact h f f.mem_all

theorem isQuote_cases {c : Char} (h : isQuote c = true) : c = '\x27' ∨ c = '\x22' := by
  simpa [isQuote] using h

theorem quote_class {c : Char} (h : isQuote c = true) :
    startsFiller c = false ∧ c.isDigit = false ∧ c ≠ 'T' ∧ c ≠ 'F' := by
  rcases isQuote_cases h with rfl | rfl <;> decide

theorem nameStart_class {c : Char} (h : isNameStart c = true) : startsFiller c = false ∧
    c.isDigit = false ∧ c ≠ 'T' ∧ c ≠ 'F' ∧ c ≠ 'N' ∧ isQuote c = false := by
  have hc := isNameStart_toNat h
  have hne (d : Char) (hd : isNameStart d = false) : c ≠ d := by
    rintro rfl
    rw [h] at hd
    cases hd
  refine ⟨?_, ?_, hne _ (by decide), hne _ (by decide), hne _ (by decide), ?_⟩
  · by_contra hf
    have := startsFiller_toNat (by simpa using hf : startsFiller c = true)
    omega
  · by_contra hd
    have : 48 ≤ c.toNat ∧ c.toNat ≤ 57 := Char.isDigit_iff_toNat.1 (by simpa using hd)
    omega
  · by_contra hq
    rcases isQuote_cases (by simpa using hq) with rfl | rfl <;> exact absurd h (by decide)

theorem startsFiller_digit {c : Char} (h : c.isDigit = true) : startsFiller c = false := by
  have hc : 48 ≤ c.toNat ∧ c.toNat ≤ 57 := Char.isDigit_iff_toNat.1 h
  by_contra hf
  have := startsFiller_toNat (by simpa using hf : startsFiller c = true)
  omega

/-! ## Each scanner on its own -/

/-- What a scanner answers where a spelling stands in front: the token, and what follows it. -/
def Accepts (token : Token) (cs rest : List Char) : Prop :=
  ∃ word, cs = word ++ rest ∧ Spells token word ∧ Stops token.goesOn rest

/-- An answer that the spellings justify. -/
def Answers (cs : List Char) : Except Flaw (Token × List Char) → Prop
  | .ok (token, rest) => Accepts token cs rest
  | .error flaw => Flawed cs flaw

theorem fit?_eq_none_iff {n : Nat} : Number.fit? n = none ↔ Int64.maxValue.toInt < n := by
  unfold Number.fit?
  rw [Int64.toInt_minValue]
  split
  · simp only [reduceCtorEq, false_iff]
    omega
  · simp only [true_iff]
    omega

theorem scanNumber_answers {cs : List Char} {r : Except Flaw (Token × List Char)}
    (h : scanNumber cs = some r) : Answers cs r := by
  unfold scanNumber at h
  simp only at h
  have hall := forall_mem_takeWhile Char.isDigit cs
  have hstop := stops_dropWhile Char.isDigit cs
  split at h
  · cases h
  · rename_i hne
    rw [List.isEmpty_iff] at hne
    split at h
    · rename_i n hn
      cases h
      exact ⟨_, List.takeWhile_append_dropWhile.symm,
        .number hne hall (Number.fit?_eq_some_iff.1 hn).symm, hstop⟩
    · rename_i hn
      cases h
      have := Flawed.numberTooLarge hne hall hstop (fit?_eq_none_iff.1 hn)
      rwa [List.takeWhile_append_dropWhile] at this

theorem keyword_answers {token : Token} {c : Char} (cs : List Char)
    (hs : ∀ tail, (∀ d ∈ tail, isKeywordTail d = true) → Spells token (c :: tail))
    (hg : token.goesOn = isKeywordTail) :
    Answers (c :: cs) (.ok (token, cs.dropWhile isKeywordTail)) := by
  refine ⟨c :: cs.takeWhile isKeywordTail, ?_, hs _ (forall_mem_takeWhile _ _), ?_⟩
  · rw [List.cons_append, List.takeWhile_append_dropWhile]
  · rw [hg]
    exact stops_dropWhile _ _

theorem scanTruth_answers {cs : List Char} {r : Except Flaw (Token × List Char)}
    (h : scanTruth cs = some r) : Answers cs r := by
  unfold scanTruth at h
  split at h
  · cases h
    exact keyword_answers _ (fun _ ht => .truth (b := true) ht) rfl
  · cases h
    exact keyword_answers _ (fun _ ht => .truth (b := false) ht) rfl
  · cases h

theorem scanNull_answers {cs : List Char} {r : Except Flaw (Token × List Char)}
    (h : scanNull cs = some r) : Answers cs r := by
  unfold scanNull at h
  split at h
  · cases h
    exact keyword_answers _ (fun _ ht => .null ht) rfl
  · cases h

theorem scanText_answers {cs : List Char} {r : Except Flaw (Token × List Char)}
    (h : scanText cs = some r) : Answers cs r := by
  unfold scanText at h
  split at h
  · cases h
  · rename_i quote cs
    split at h
    · rename_i hq
      -- The text runs up to the next quote, or there is none.
      split at h
      · rename_i hnone
        cases h
        have hmem : quote ∉ cs := by
          intro hc
          have := List.dropWhile_eq_nil_iff.1 hnone quote hc
          simp at this
        exact .unclosedText hq hmem
      · rename_i q rest hrest
        cases h
        have hq' : q = quote := by
          have := stops_dropWhile (· != quote) cs
          rw [hrest] at this
          simpa using this q rfl
        subst hq'
        have hmem : q ∉ cs.takeWhile (· != q) := by
          intro hc
          simpa using forall_mem_takeWhile _ _ q hc
        refine ⟨_, ?_, .text hq hmem, fun _ _ => rfl⟩
        rw [List.cons_append, List.cons_append, List.append_assoc, List.singleton_append, ← hrest,
          List.takeWhile_append_dropWhile]
    · cases h

theorem scanName_answers {cs : List Char} {r : Except Flaw (Token × List Char)}
    (h : scanName cs = some r) : Answers cs r := by
  unfold scanName at h
  split at h
  · cases h
  · rename_i c cs
    split at h
    · rename_i hc
      cases h
      refine ⟨c :: cs.takeWhile isNameTail, ?_, .name hc (forall_mem_takeWhile _ _),
        stops_dropWhile _ _⟩
      rw [List.cons_append, List.takeWhile_append_dropWhile]
    · cases h

theorem scanBuiltin_answers {cs : List Char} {r : Except Flaw (Token × List Char)}
    (h : scanBuiltin cs = some r) : Answers cs r := by
  unfold scanBuiltin at h
  split at h
  · cases h
  · rename_i c cs
    obtain ⟨f, hf, hr⟩ := Option.map_eq_some_iff.1 h
    obtain rfl := Builtin.ofTag?_eq_some_iff.1 hf
    subst hr
    -- Only a tag that is a capital letter may have a tail.
    by_cases hu : f.tag.isUpper = true
    · rw [if_pos hu]
      refine keyword_answers _ (fun _ ht => .builtin ht fun hn => ?_) ?_
      · rw [hu] at hn
        cases hn
      · funext c
        simp [Token.goesOn, hu]
    · rw [if_neg hu]
      refine ⟨[f.tag], rfl, .builtin (by simp) fun _ => rfl, fun c _ => ?_⟩
      simp [Token.goesOn, hu]

/-! ## Scanners that decline -/

variable {c : Char} (cs : List Char)

theorem scanNumber_decline (h : c.isDigit = false) : scanNumber (c :: cs) = none := by
  simp [scanNumber, h]

theorem scanTruth_decline (ht : c ≠ 'T') (hf : c ≠ 'F') : scanTruth (c :: cs) = none := by
  unfold scanTruth
  split
  · rename_i h
    cases h
    exact absurd rfl ht
  · rename_i h
    cases h
    exact absurd rfl hf
  · rfl

theorem scanText_decline (h : isQuote c = false) : scanText (c :: cs) = none := by
  simp [scanText, h]

theorem scanNull_decline (h : c ≠ 'N') : scanNull (c :: cs) = none := by
  unfold scanNull
  split
  · rename_i hc
    cases hc
    exact absurd rfl h
  · rfl

theorem scanName_decline (h : isNameStart c = false) : scanName (c :: cs) = none := by
  simp [scanName, h]

theorem scanBuiltin_decline (h : ∀ f : Builtin, f.tag ≠ c) : scanBuiltin (c :: cs) = none := by
  have hnone : Builtin.ofTag? c = none := by
    rw [Option.eq_none_iff_forall_not_mem]
    intro f hf
    exact h f (Builtin.ofTag?_eq_some_iff.1 hf)
  simp [scanBuiltin, hnone]

theorem scan_eq_or (cs : List Char) : scan cs = ((scanNumber cs).or ((scanTruth cs).or
    ((scanText cs).or ((scanNull cs).or ((scanName cs).or (scanBuiltin cs)))))) := by
  simp only [scan, scanners, List.findSome?_cons, List.findSome?_nil]
  cases scanNumber cs <;> cases scanTruth cs <;> cases scanText cs <;> cases scanNull cs <;>
    cases scanName cs <;> cases scanBuiltin cs <;> rfl

theorem scanNumber_isSome (h : c.isDigit = true) : (scanNumber (c :: cs)).isSome = true := by
  simp only [scanNumber, List.takeWhile_cons, h, if_true, List.isEmpty_cons]
  cases Number.fit? (Text.digitsValue (c :: cs.takeWhile Char.isDigit)) <;> rfl

/-! ## All scanners together -/

/-- Whatever the scanners find in front of a source is justified by the spellings. -/
theorem scan_answers {cs : List Char} {r : Except Flaw (Token × List Char)}
    (h : scan cs = some r) : Answers cs r := by
  obtain ⟨s, hs, h⟩ := List.exists_of_findSome?_eq_some h
  simp only [scanners, List.mem_cons, List.not_mem_nil, or_false] at hs
  rcases hs with rfl | rfl | rfl | rfl | rfl | rfl
  · exact scanNumber_answers h
  · exact scanTruth_answers h
  · exact scanText_answers h
  · exact scanNull_answers h
  · exact scanName_answers h
  · exact scanBuiltin_answers h

/-- Where no scanner finds anything, no token starts. -/
theorem startsNothing_of_scan (hf : startsFiller c = false) (h : scan (c :: cs) = none) :
    StartsNothing c := by
  rw [scan_eq_or] at h
  simp only [Option.or_eq_none_iff] at h
  obtain ⟨hnum, htruth, htext, hnull, hname, hbuiltin⟩ := h
  refine ⟨hf, ?_, ⟨?_, ?_, ?_⟩, ?_, ?_, ?_⟩
  · by_contra hd
    rw [Bool.not_eq_false] at hd
    have := scanNumber_isSome cs hd
    rw [hnum] at this
    cases this
  · rintro rfl
    cases htruth
  · rintro rfl
    cases htruth
  · rintro rfl
    cases hnull
  · by_contra hq
    rw [Bool.not_eq_false] at hq
    simp only [scanText, hq, if_true] at htext
    split at htext <;> cases htext
  · by_contra hn
    rw [Bool.not_eq_false] at hn
    simp [scanName, hn] at hname
  · rintro f rfl
    simp [scanBuiltin, Builtin.ofTag?_tag] at hbuiltin

theorem scan_of_startsNothing (h : StartsNothing c) : scan (c :: cs) = none := by
  simp [scan_eq_or, scanNumber_decline cs h.digit, scanTruth_decline cs h.keyword.1 h.keyword.2.1,
    scanText_decline cs h.quote, scanNull_decline cs h.keyword.2.2, scanName_decline cs h.name,
    scanBuiltin_decline cs h.tag]

theorem scanNumber_run {digits rest : List Char} (hne : digits ≠ [])
    (hd : ∀ c ∈ digits, c.isDigit = true) (hr : Stops Char.isDigit rest) :
    scanNumber (digits ++ rest) =
      match Number.fit? (Text.digitsValue digits) with
      | some n => some (.ok (.literal (.number n), rest))
      | none => some (.error (.numberTooLarge (String.ofList digits))) := by
  unfold scanNumber
  simp only [takeWhile_append_stops hd hr, dropWhile_append_stops hd hr]
  exact if_neg (by simpa using hne)

/-- A quote is read as a text, and nothing else. -/
theorem scan_quote (h : isQuote c = true) : scan (c :: cs) = scanText (c :: cs) := by
  obtain ⟨-, hd, ht, hf⟩ := quote_class h
  have hsome : (scanText (c :: cs)).isSome = true := by
    simp only [scanText, h, if_true]
    split <;> rfl
  rw [scan_eq_or, scanNumber_decline cs hd, scanTruth_decline cs ht hf, Option.none_or,
    Option.none_or, Option.or_of_isSome hsome]

theorem scan_text {text : List Char} (hq : isQuote c = true) (ht : c ∉ text) (rest : List Char) :
    scan (c :: text ++ [c] ++ rest) = some (.ok (.literal (.text (String.ofList text)), rest)) := by
  have hw : ∀ d ∈ text, (d != c) = true := by
    intro d hd
    simpa using fun he : d = c => ht (he ▸ hd)
  have hr : Stops (· != c) (c :: rest) := by
    intro d hd
    cases hd
    simp
  rw [List.append_assoc, List.singleton_append, List.cons_append, scan_quote _ hq]
  simp only [scanText, hq, if_true, dropWhile_append_stops hw hr, takeWhile_append_stops hw hr]

theorem scan_number {digits : List Char} (hne : digits ≠ [])
    (hd : ∀ c ∈ digits, c.isDigit = true) (rest : List Char) :
    scan (digits ++ rest) = scanNumber (digits ++ rest) := by
  obtain ⟨c, tail, rfl⟩ := List.exists_cons_of_ne_nil hne
  rw [scan_eq_or, List.cons_append,
    Option.or_of_isSome (scanNumber_isSome (tail ++ rest) (hd c (List.mem_cons_self ..)))]

/-- Every spelling is read back, whatever follows that does not prolong it. -/
theorem scan_spelling {token : Token} {word rest : List Char} (h : Spells token word)
    (hr : Stops token.goesOn rest) : scan (word ++ rest) = some (.ok (token, rest)) := by
  -- The scanners before the right one decline, since first characters tell tokens apart.
  cases h with
  | number hne hd hv =>
    rw [scan_number hne hd, scanNumber_run hne hd hr, Number.fit?_eq_some_iff.2 hv.symm]
  | @truth b tail ht =>
    have hdrop := dropWhile_append_stops ht hr
    cases b
    · rw [if_neg Bool.false_ne_true, List.cons_append, scan_eq_or,
        scanNumber_decline _ (by decide), Option.none_or]
      simp only [scanTruth, hdrop, Option.some_or]
    · rw [if_pos rfl, List.cons_append, scan_eq_or, scanNumber_decline _ (by decide),
        Option.none_or]
      simp only [scanTruth, hdrop, Option.some_or]
  | null ht =>
    rw [List.cons_append, scan_eq_or, scanNumber_decline _ (by decide),
      scanTruth_decline _ (by decide) (by decide), scanText_decline _ (by decide)]
    simp only [scanNull, dropWhile_append_stops ht hr, Option.none_or, Option.some_or]
  | text hq ht => exact scan_text hq ht rest
  | name hc ht =>
    obtain ⟨-, hd, hT, hF, hN, hq⟩ := nameStart_class hc
    rw [List.cons_append, scan_eq_or, scanNumber_decline _ hd, scanTruth_decline _ hT hF,
      scanText_decline _ hq, scanNull_decline _ hN]
    simp only [scanName, hc, if_true, takeWhile_append_stops ht hr, dropWhile_append_stops ht hr,
      Option.none_or, Option.some_or]
  | @builtin f tail ht hu =>
    obtain ⟨-, hd, hT, hF, hN, hq, hn⟩ := tag_class f
    rw [List.cons_append, scan_eq_or, scanNumber_decline _ hd, scanTruth_decline _ hT hF,
      scanText_decline _ hq, scanNull_decline _ hN, scanName_decline _ hn]
    simp only [scanBuiltin, Builtin.ofTag?_tag, Option.map_some, Option.none_or]
    by_cases hup : f.tag.isUpper = true
    · have hr' : Stops isKeywordTail rest := by
        intro c hc
        simpa [Token.goesOn, hup] using hr c hc
      rw [if_pos hup, dropWhile_append_stops ht hr']
    · rw [if_neg hup, hu (by simpa using hup), List.nil_append]

/-- Every flaw is found. -/
theorem scan_flawed {cs : List Char} {flaw : Flaw} (h : Flawed cs flaw) :
    scan cs = some (.error flaw) ∨
      scan cs = none ∧ ∃ c rest, cs = c :: rest ∧ flaw = .unknownCharacter c := by
  cases h with
  | @unknownCharacter c cs hc =>
    exact .inr ⟨scan_of_startsNothing cs hc, c, cs, rfl, rfl⟩
  | @unclosedText quote cs hq hm =>
    left
    have hdrop : cs.dropWhile (· != quote) = [] := by
      rw [List.dropWhile_eq_nil_iff]
      intro c hc
      simpa using fun he : c = quote => hm (he ▸ hc)
    rw [scan_quote _ hq]
    simp only [scanText, hq, if_true, hdrop]
  | @numberTooLarge digits rest hne hd hr hbig =>
    left
    rw [scan_number hne hd, scanNumber_run hne hd hr, fit?_eq_none_iff.2 hbig]

/-! ## The order of scanners -/

/-- Of any two scanners, one declines: the first character of a source tells which form of token is
there, if any. -/
theorem scanners_pairwise (cs : List Char) :
    scanners.Pairwise fun s s' => s cs = none ∨ s' cs = none := by
  cases cs with
  | nil => simp [scanners, scanNumber, scanTruth, scanText, scanNull, scanName, scanBuiltin]
  | cons c cs =>
    -- Each form is told apart from those that are left.
    by_cases htag : ∃ f : Builtin, f.tag = c
    · obtain ⟨f, rfl⟩ := htag
      obtain ⟨-, hd, hT, hF, hN, hq, hn⟩ := tag_class f
      simp [scanners, scanNumber_decline cs hd, scanTruth_decline cs hT hF,
        scanText_decline cs hq, scanNull_decline cs hN, scanName_decline cs hn]
    have noTag := scanBuiltin_decline cs fun f hf => htag ⟨f, hf⟩
    by_cases hname : isNameStart c = true
    · obtain ⟨-, hd, hT, hF, hN, hq⟩ := nameStart_class hname
      simp [scanners, noTag, scanNumber_decline cs hd, scanTruth_decline cs hT hF,
        scanText_decline cs hq, scanNull_decline cs hN]
    have noName := scanName_decline cs (by simpa using hname)
    by_cases hquote : isQuote c = true
    · obtain ⟨-, hd, hT, hF⟩ := quote_class hquote
      have hN : c ≠ 'N' := by
        rintro rfl
        cases hquote
      simp [scanners, noTag, noName, scanNumber_decline cs hd, scanTruth_decline cs hT hF,
        scanNull_decline cs hN]
    have noText := scanText_decline cs (by simpa using hquote)
    by_cases hdigit : c.isDigit = true
    · have hne (d : Char) (hd : d.isDigit = false) : c ≠ d := by
        rintro rfl
        rw [hdigit] at hd
        cases hd
      simp [scanners, noTag, noName, noText, scanNull_decline cs (hne 'N' (by decide)),
        scanTruth_decline cs (hne 'T' (by decide)) (hne 'F' (by decide))]
    have noNumber := scanNumber_decline cs (by simpa using hdigit)
    by_cases hnull : c = 'N'
    · subst hnull
      have noTruth : scanTruth ('N' :: cs) = none := rfl
      simp [scanners, noTag, noName, noText, noNumber, noTruth]
    · simp [scanners, noTag, noName, noText, noNumber, scanNull_decline cs hnull]

/-- Scanners of which no two accept or reject the same source may be tried in any order. -/
theorem findSome?_perm {order order' : List Scanner} (h : order.Perm order') {cs : List Char}
    (hone : order.Pairwise fun s s' => s cs = none ∨ s' cs = none) :
    order.findSome? (· cs) = order'.findSome? (· cs) := by
  induction h with
  | nil => rfl
  | cons s _ ih => rw [List.findSome?_cons, List.findSome?_cons, ih (List.pairwise_cons.1 hone).2]
  | swap s s' order =>
    have hone := (List.pairwise_cons.1 hone).1 s (List.mem_cons_self ..)
    rcases hone with hnone | hnone <;> simp [List.findSome?_cons, hnone]
  | trans h _ ih ih' => exact (ih hone).trans (ih' (h.pairwise hone Or.symm))

theorem findSome?_eq_scan {order : List Scanner} (h : order.Perm scanners) (cs : List Char) :
    order.findSome? (· cs) = scan cs :=
  (findSome?_perm h.symm (scanners_pairwise cs)).symm

/-! ## Where tokens start -/

/-- A spelling does not start like filler. -/
theorem startsFiller_of_spells {token : Token} {c : Char} {word : List Char}
    (h : Spells token (c :: word)) : startsFiller c = false := by
  generalize hw : c :: word = w at h
  cases h with
  | number hne hd _ =>
    subst hw
    exact startsFiller_digit (hd c (List.mem_cons_self ..))
  | @truth b _ _ => cases hw; cases b <;> decide
  | null _ => cases hw; decide
  | text hq _ => cases hw; exact (quote_class hq).1
  | name hc _ => cases hw; exact (nameStart_class hc).1
  | builtin _ _ => cases hw; exact (tag_class _).1

theorem ne_nil_of_spells {token : Token} {word : List Char} (h : Spells token word) :
    word ≠ [] := by
  cases h with
  | number hne _ _ => exact hne
  | _ => exact List.cons_ne_nil _ _

theorem startsFiller_of_flawed {flaw : Flaw} {cs : List Char} (h : Flawed cs flaw) :
    ∃ c rest, cs = c :: rest ∧ startsFiller c = false := by
  cases h with
  | unknownCharacter hc => exact ⟨_, _, rfl, hc.filler⟩
  | unclosedText hq _ => exact ⟨_, _, rfl, (quote_class hq).1⟩
  | numberTooLarge hne hd _ _ =>
    obtain ⟨c, tail, rfl⟩ := List.exists_cons_of_ne_nil hne
    exact ⟨c, _, rfl, startsFiller_digit (hd c (List.mem_cons_self ..))⟩

end Source

end KnightLang
