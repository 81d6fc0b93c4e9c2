/-
Where reading fails. A reading that completes no expression has taken all tokens of its source; its
error is the flaw behind them, or the lack of an argument at the end of the source (`exists_fails`).
The position of the error is the place of the flaw, told exactly by bytes, line and column as long
as 32 bits can count the characters, and what the flaw says is there to be seen around that place
(`errors_located`).
-/
import KnightLang.Proofs.Source.Counting

namespace KnightLang

namespace Source

/-! ## How reading fails -/

/-- How reading fails on a source with these tokens, if they hold no complete expression. -/
inductive Fails (source : String) (s : TokenStream) : SourceError → Prop
  | flawed {before start : List Char} {flaw : Flaw} : source.toList = before ++ start →
      s.ending = some (flaw, start) → Fails source s ⟨flaw, .locate before⟩
  /-- The source ends, and calls are open that hold all of its tokens. -/
  | short {frames : List Frame} : s.ending = none → AllOpen frames → openTokens frames = s.words →
      Fails source s ⟨incompleteFlaw frames, .locate source.toList⟩

section
variable {source : String} {s : TokenStream}

/-- If no expression stands at the front of the tokens, then all of them are read, with an error. -/
theorem exists_fails (hs : Splits source.toList s)
    (hopen : ∀ t : Term String, ¬ t.tokens <+: s.words) :
    ∃ e, Fails source s e ∧ parse source = ⟨.error e, namesOf s.words⟩ := by
  rcases readFrom_spec hs allOpen_nil [] with ⟨before, last, t, h⟩ | ⟨inner, h⟩
  · obtain ⟨-, more, hmore⟩ := h.words
    exact absurd ⟨more, hmore.symm⟩ (hopen t)
  · have hread := h.reading
    rw [List.append_nil] at hread
    cases hend : s.ending with
    | none =>
      refine ⟨_, .short hend h.allOpen h.tokens, ?_⟩
      unfold parse
      simp only [hread, TokenStream.endingWith, hend, List.reverse_reverse]
    | some flawed =>
      obtain ⟨flaw, start⟩ := flawed
      obtain ⟨before, hbefore⟩ := hs.ending_isSuffix hend
      refine ⟨_, .flawed hbefore.symm hend, ?_⟩
      unfold parse
      simp only [hread, TokenStream.endingWith, hend, List.reverse_reverse]
      rw [← hbefore, List.length_append, Nat.add_sub_cancel, List.take_left]

theorem not_prefix_of_error {e : SourceError} (hs : Splits source.toList s)
    (h : (parse source).result = .error e) (t : Term String) : ¬ t.tokens <+: s.words := by
  rintro ⟨more, hmore⟩
  rw [parse_of_words hs hmore.symm] at h
  cases h

theorem fails_of_error {e : SourceError} (hs : Splits source.toList s)
    (h : (parse source).result = .error e) :
    Fails source s e ∧ parse source = ⟨.error e, namesOf s.words⟩ := by
  obtain ⟨e', hfails, hparse⟩ := exists_fails hs (not_prefix_of_error hs h)
  rw [hparse] at h
  cases h
  exact ⟨hfails, hparse⟩

end

/-! ## The place of a flaw -/

/-- Filler does not end with a digit. -/
theorem Filler.getLast?_isDigit {f : List Char} (h : Filler f) :
    ∀ c ∈ f.getLast?, c.isDigit = false := by
  induction h with
  | nil => simp
  | @char c cs hc _ ih =>
    have first : c.isDigit = false := by
      by_contra hd
      have := startsFiller_digit (by simpa using hd : c.isDigit = true)
      simp [startsFiller, hc] at this
    rw [List.getLast?_cons]
    cases hcs : cs.getLast? with
    | none => simpa using first
    | some d => simpa using ih d hcs
  | @comment text cs _ _ ih =>
    rw [List.getLast?_append_cons, List.getLast?_cons]
    cases hcs : cs.getLast? with
    | none => simp
    | some d => simpa using ih d hcs

/-- A token that ends with a digit goes on with any digit. -/
theorem Spells.goesOn_digit {token : Token} {word : List Char} {c d : Char} (h : Spells token word)
    (hlast : word.getLast? = some c) (hc : c.isDigit = true) (hd : d.isDigit = true) :
    token.goesOn d = true := by
  have keyword : isKeywordTail d = true := by simp [isKeywordTail, hd]
  cases h with
  | number _ _ _ => exact hd
  | truth _ | null _ => exact keyword
  | @text quote text hq _ =>
    rw [List.getLast?_concat] at hlast
    cases hlast
    rw [(quote_class hq).2.1] at hc
    cases hc
  | name _ _ => simp [Token.goesOn, isNameTail, hd]
  | @builtin f tail _ hu =>
    by_cases hup : f.tag.isUpper = true
    · simp [Token.goesOn, hup, keyword]
    · rw [hu (by simpa using hup)] at hlast
      obtain rfl : f.tag = c := by simpa using hlast
      rw [(tag_class f).2.1] at hc
      cases hc

/-- A flaw is where no token starts, and the place is not one between two digits. -/
theorem Splits.flawed {cs start : List Char} {s : TokenStream} {flaw : Flaw} (h : Splits cs s)
    (he : s.ending = some (flaw, start)) : ∃ before, cs = before ++ start ∧ Flawed start flaw ∧
      ∀ c ∈ before.getLast?, ∀ d ∈ start.head?, c.isDigit = true → d.isDigit = false := by
  induction h with
  | finished _ => cases he
  | invalid hb =>
    cases he
    cases hb with
    | @invalid filler _ _ hf hflaw =>
      refine ⟨filler, rfl, hflaw, fun c hc d _ hdigit => ?_⟩
      rw [hf.getLast?_isDigit c hc] at hdigit
      cases hdigit
  | @token cs rest token s hb _ ih =>
    obtain ⟨before, rfl, hflaw, happart⟩ := ih he
    cases hb with
    | @token filler word _ _ _ hw hr =>
      refine ⟨filler ++ word ++ before, (List.append_assoc ..).symm, hflaw, ?_⟩
      intro c hc d hd hdigit
      rcases List.eq_nil_or_concat before with rfl | ⟨init, last, rfl⟩
      · -- The flaw is right behind the token, and does not prolong it.
        rw [List.append_nil, List.getLast?_append_of_ne_nil _ (ne_nil_of_spells hw)] at hc
        have hstop := hr d hd
        by_contra hdd
        rw [hw.goesOn_digit hc hdigit (by simpa using hdd)] at hstop
        cases hstop
      · rw [List.getLast?_append_of_ne_nil _ (by simp)] at hc
        exact happart c hc d hd hdigit

end Source

/-! ## Positions -/

/-- A position tells what stands before it: how many bytes, how many ended lines, and how many
characters of the line that goes on there. -/
structure Position.Marks (p : Position) (before : String) : Prop where
  offset : p.offset = before.utf8ByteSize
  line : p.line.toNat = 1 + before.toList.count '\n'
  column : ∃ ended line, before.toList = ended ++ line ∧ (∀ c ∈ ended.getLast?, c = '\n') ∧
    '\n' ∉ line ∧ p.column.toNat = 1 + line.length

namespace Position

theorem toNat_counted {n : Nat} (h : n < 0xFFFFFFFF) : (UInt32.ofNat n + 1).toNat = 1 + n := by
  rw [UInt32.toNat_add, UInt32.toNat_ofNat', UInt32.toNat_one]
  omega

/-- The current line is what stands behind the last newline. -/
theorem exists_ended (before : List Char) : ∃ ended, before = ended ++ currentLine before ∧
    (∀ c ∈ ended.getLast?, c = '\n') ∧ '\n' ∉ currentLine before := by
  refine ⟨(before.reverse.dropWhile (· != '\n')).reverse, ?_, ?_, ?_⟩
  · rw [currentLine, ← List.reverse_append, List.takeWhile_append_dropWhile, List.reverse_reverse]
  · rw [List.getLast?_reverse]
    intro c hc
    simpa using Source.stops_dropWhile (· != '\n') before.reverse c hc
  · rw [currentLine, List.mem_reverse]
    intro h
    simpa using Source.forall_mem_takeWhile _ _ _ h

/-- Neither counter wraps in a source that 32 bits can count. -/
theorem marks_locate {before : String} (h : before.length < 0xFFFFFFFF) :
    (locate before.toList).Marks before := by
  obtain ⟨ended, hcut, hended, hline⟩ := exists_ended before.toList
  have hlength : before.toList.length < 0xFFFFFFFF := by rwa [String.length_toList]
  refine ⟨?_, toNat_counted ?_, ended, _, hcut, hended, hline, toNat_counted ?_⟩
  · show (String.ofList before.toList).utf8ByteSize = _
    rw [String.ofList_toList]
  · exact Nat.lt_of_le_of_lt List.count_le_length hlength
  · rw [hcut, List.length_append] at hlength
    omega

end Position

/-! ## Errors and their places -/

/-- What the flaw of an error says is there to be seen, in a source cut at the place of the flaw. -/
def SourceError.Explained (e : SourceError) (before behind : String) : Prop :=
  match e.flaw with
  | .noExpression => e.position.offset = (before ++ behind).utf8ByteSize
  | .missingArgument _ _ => e.position.offset = (before ++ behind).utf8ByteSize
  | .unknownCharacter c => ∃ more, behind.toList = c :: more ∧ Source.StartsNothing c
  | .unclosedText => ∃ quote more, behind.toList = quote :: more ∧ Source.isQuote quote = true ∧
      quote ∉ more
  | .numberTooLarge digits => (∀ c ∈ before.toList.getLast?, c.isDigit = false) ∧
      digits ≠ "" ∧ digits.toList = behind.toList.takeWhile Char.isDigit ∧
      Int64.maxValue.toInt < Text.digitsValue digits.toList

namespace Source

theorem Flawed.explained {before behind : String} {flaw : Flaw} (h : Flawed behind.toList flaw)
    (hapart : ∀ c ∈ before.toList.getLast?, ∀ d ∈ behind.toList.head?,
      c.isDigit = true → d.isDigit = false) (p : Position) :
    SourceError.Explained ⟨flaw, p⟩ before behind := by
  generalize hcs : behind.toList = cs at h
  cases h with
  | unknownCharacter hc => exact ⟨_, hcs, hc⟩
  | unclosedText hq hm => exact ⟨_, _, hcs, hq, hm⟩
  | @numberTooLarge digits rest hne hd hr hbig =>
    obtain ⟨d, tail, rfl⟩ := List.exists_cons_of_ne_nil hne
    refine ⟨fun c hc => ?_, ?_, ?_, ?_⟩
    · by_contra hdigit
      have := hapart c hc d (by rw [hcs]; rfl) (by simpa using hdigit)
      rw [hd d (List.mem_cons_self ..)] at this
      cases this
    · rw [Ne, ← String.toList_inj, String.toList_ofList]
      exact List.cons_ne_nil _ _
    · rw [String.toList_ofList, hcs, takeWhile_append_stops hd hr]
    · rwa [String.toList_ofList]

/-- Errors of sources are positioned exactly. If 32 bits can count the characters of a source, then
an error of it has the place of its flaw: that is a place between two characters of the source, told
by the bytes before it, by the newlines before it and by the characters since the last of these,
lines and columns counted from one. A missing expression or argument is missed at the end of the
source. Otherwise the flaw shows right behind the place: a character that starts no token and is not
skipped; a quote that does not occur again; or all digits of a number out of range, with no digit in
front of them. -/
theorem errors_located {source : String} {e : SourceError} (hlength : source.length < 0xFFFFFFFF)
    (h : (parse source).result = .error e) : ∃ before behind : String, source = before ++ behind ∧
      e.position.Marks before ∧ e.Explained before behind := by
  obtain ⟨s, hs⟩ := exists_splits source.toList
  cases (fails_of_error hs h).1 with
  | @flawed before start flaw hcut hend =>
    obtain ⟨before', hcut', hflaw, hapart⟩ := hs.flawed hend
    obtain rfl := List.append_cancel_right (hcut.symm.trans hcut')
    have hsource : source = String.ofList before ++ String.ofList start := by
      rw [← String.ofList_append, ← hcut, String.ofList_toList]
    have shorter : (String.ofList before).length < 0xFFFFFFFF := by
      rw [hsource, String.length_append] at hlength
      omega
    have marks := Position.marks_locate shorter
    rw [String.toList_ofList] at marks
    refine ⟨_, _, hsource, marks, Flawed.explained ?_ ?_ _⟩
    · rwa [String.toList_ofList]
    · rwa [String.toList_ofList, String.toList_ofList]
  | @short frames hend _ _ =>
    have marks := Position.marks_locate hlength
    refine ⟨source, "", String.append_empty.symm, marks, ?_⟩
    have whole : (Position.locate source.toList).offset = (source ++ "").utf8ByteSize := by
      rw [marks.offset, String.append_empty]
    cases frames with
    | nil => exact whole
    | cons frame outer => exact whole

/-- In `+ 'é' # 9`, a newline and `99999999999999999999`, the number out of range starts twelve bytes
behind the start of the source, in the second line. -/
theorem large_number_located :
    let source := "+ 'é' # 9\n 99999999999999999999"
    let e : SourceError := ⟨.numberTooLarge "99999999999999999999", ⟨12, 2, 2⟩⟩
    source.length < 0xFFFFFFFF ∧ (parse source).result = .error e ∧
      ∃ before behind : String, source = before ++ behind ∧ e.position.Marks before ∧
        e.Explained before behind := by
  intro source e
  have short : source.length < 0xFFFFFFFF := by decide +kernel
  have fails : (parse source).result = .error e := by decide +kernel
  exact ⟨short, fails, errors_located short fails⟩

end Source

end KnightLang
