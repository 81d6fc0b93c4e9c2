/-
Sources with more behind them. What reading has found in a source is still there when more text
follows, unless the text prolongs the last token: a first expression stays the first one, and so do
a character that starts no token and a number out of range. Where the source ended too early and a
new line follows it, errors can only come behind its end (`load_append`).
-/
import KnightLang.Proofs.Source.Concatenation
import KnightLang.Proofs.Source.Failure

namespace KnightLang.Source

/-! ## Text that prolongs no token -/

/-- A letter, a digit or an underscore. -/
def isWordChar (c : Char) : Bool := c.isAlphanum || c == '_'

/-- Tokens go on only with such characters. -/
theorem goesOn_of_not_wordChar {c : Char} (h : isWordChar c = false) (token : Token) :
    token.goesOn c = false := by
  have h : (c.isUpper || c.isLower || c.isDigit || c == '_') = false := h
  simp only [Bool.or_eq_false_iff] at h
  obtain ⟨⟨⟨hupper, hlower⟩, hdigit⟩, hunderscore⟩ := h
  rcases token with (_ | _ | _ | _) | _ | _ <;>
    simp [Token.goesOn, isKeywordTail, isNameTail, isNameStart, hupper, hlower, hdigit, hunderscore]

theorem Stops.of_imp {p q : Char → Bool} {cs : List Char} (h : Stops p cs)
    (himp : ∀ c, p c = false → q c = false) : Stops q cs := fun c hc => himp c (h c hc)

/-! ## The tokens of a longer source -/

section
variable {cs start more : List Char} {s : TokenStream} {flaw : Flaw}

/-- The tokens of a source stay where they are. -/
theorem Splits.exists_append (h : Splits cs s) (hm : Stops isWordChar more) :
    ∃ longer, Splits (cs ++ more) longer ∧ s.words <+: longer.words := by
  induction h with
  | @finished cs _ | @invalid cs _ _ _ =>
    obtain ⟨longer, hlonger⟩ := exists_splits (cs ++ more)
    exact ⟨longer, hlonger, List.nil_prefix⟩
  | @token cs rest token s hb _ ih =>
    obtain ⟨longer, hlonger, hwords⟩ := ih
    have ends := hb.stops.append (hm.of_imp fun c hc => goesOn_of_not_wordChar hc token)
    exact ⟨longer.cons token (rest ++ more), .token (hb.append ends) hlonger,
      List.cons_prefix_cons.2 ⟨rfl, hwords⟩⟩

theorem Stops.append_of_ne_nil {p : Char → Bool} (h : Stops p cs) (hne : cs ≠ []) :
    Stops p (cs ++ more) := by
  obtain ⟨c, tail, rfl⟩ := List.exists_cons_of_ne_nil hne
  exact h

/-- A flaw that is one in the longer source, too, still ends the same tokens. -/
theorem Splits.flaw_append (h : Splits cs s) (he : s.ending = some (flaw, start))
    (hflaw : Flawed (start ++ more) flaw) :
    ∃ longer, Splits (cs ++ more) longer ∧ longer.words = s.words ∧
      longer.ending = some (flaw, start ++ more) := by
  induction h with
  | finished _ => cases he
  | invalid hb =>
    cases he
    cases hb with
    | @invalid filler _ _ hf _ =>
      refine ⟨⟨[], some (flaw, start ++ more)⟩, ?_, rfl, rfl⟩
      rw [List.append_assoc]
      exact .invalid (.invalid hf hflaw)
  | @token cs rest token s hb hs ih =>
    obtain ⟨longer, hlonger, hwords, hending⟩ := ih he
    -- The flaw stands between the token and what follows the source.
    have apart : rest ≠ [] := by
      obtain ⟨before, rfl, hstart, -⟩ := hs.flawed he
      obtain ⟨c, tail, rfl, -⟩ := startsFiller_of_flawed hstart
      simp
    refine ⟨longer.cons token (rest ++ more),
      .token (hb.append (hb.stops.append_of_ne_nil apart)) hlonger, ?_, hending⟩
    rw [TokenStream.words_cons, hwords, TokenStream.words_cons]

end

/-! ## Reading a longer source -/

section
variable {source more : String} {e : SourceError}

theorem parse_append_of_ok {t : Term String} (h : (parse source).result = .ok t)
    (hm : Stops isWordChar more.toList) : parse (source ++ more) = parse source := by
  obtain ⟨s, hs⟩ := exists_splits source.toList
  obtain ⟨behind, hbehind⟩ := words_of_parse hs h
  obtain ⟨longer, hlonger, rest, hrest⟩ := hs.exists_append hm
  rw [← String.toList_append] at hlonger
  have words : longer.words = t.tokens ++ (behind ++ rest) := by
    rw [← hrest, hbehind, List.append_assoc]
  rw [parse_of_words hlonger words, parse_eq_of_ok h]

theorem parse_append_of_flawed (h : (parse source).result = .error e)
    (hkeep : ∀ start, Flawed start e.flaw → Flawed (start ++ more.toList) e.flaw)
    (hends : ∀ frames, e.flaw ≠ incompleteFlaw frames) : parse (source ++ more) = parse source := by
  obtain ⟨s, hs⟩ := exists_splits source.toList
  obtain ⟨hfails, hparse⟩ := fails_of_error hs h
  cases hfails with
  | short _ _ _ => exact absurd rfl (hends _)
  | @flawed before start flaw hcut hend =>
    obtain ⟨-, -, hflaw, -⟩ := hs.flawed hend
    obtain ⟨longer, hlonger, hwords, hending⟩ := hs.flaw_append hend (hkeep start hflaw)
    rw [← String.toList_append] at hlonger
    have incomplete (t : Term String) : ¬ t.tokens <+: longer.words := by
      rw [hwords]
      exact not_prefix_of_error hs h t
    obtain ⟨e', hfails', hparse'⟩ := exists_fails hlonger incomplete
    rw [hparse', hparse, hwords]
    cases hfails' with
    | short hnone _ _ => rw [hending] at hnone; cases hnone
    | @flawed before' start' flaw' hcut' hend' =>
      rw [hending] at hend'
      cases hend'
      -- The flaw has the same place, for the same text stands in front of it.
      rw [String.toList_append, hcut, List.append_assoc] at hcut'
      rw [List.append_cancel_right hcut']

theorem Flawed.append_of_unknownCharacter {c : Char} {start : List Char}
    (h : Flawed start (.unknownCharacter c)) (more : List Char) :
    Flawed (start ++ more) (.unknownCharacter c) := by
  cases h with
  | unknownCharacter hc => exact .unknownCharacter hc

theorem Flawed.append_of_numberTooLarge {digits : String} {start more : List Char}
    (h : Flawed start (.numberTooLarge digits)) (hm : Stops isWordChar more) :
    Flawed (start ++ more) (.numberTooLarge digits) := by
  cases h with
  | numberTooLarge hne hdigits hrest hbig =>
    rw [List.append_assoc]
    refine .numberTooLarge hne hdigits (hrest.append (hm.of_imp fun c hc => ?_)) hbig
    exact goesOn_of_not_wordChar hc (.literal (.number 0))

/-- A source whose error is not that of any place ends with its tokens. -/
theorem Fails.ending_eq_none {s : TokenStream} (h : Fails source s e) (hs : Splits source.toList s)
    (hplace : ∀ start, ¬ Flawed start e.flaw) : s.ending = none := by
  cases h with
  | short hend _ _ => exact hend
  | @flawed before start flaw _ hend =>
    obtain ⟨-, -, hflaw, -⟩ := hs.flawed hend
    exact absurd hflaw (hplace start)

theorem offset_locate_append (before behind : List Char) :
    (Position.locate (before ++ behind)).offset =
      (String.ofList before).utf8ByteSize + (String.ofList behind).utf8ByteSize := by
  show (String.ofList (before ++ behind)).utf8ByteSize = _
  rw [String.ofList_append, String.utf8ByteSize_append]

/-- No error stands in the part of a source that, taken by itself, just ends too early. -/
theorem le_offset_of_line {e' : SourceError} (h : (parse source).result = .error e)
    (hplace : ∀ start, ¬ Flawed start e.flaw) (hm : more.toList.head? = some '\n')
    (h' : (parse (source ++ more)).result = .error e') :
    source.utf8ByteSize ≤ e'.position.offset := by
  obtain ⟨s, hs⟩ := exists_splits source.toList
  have hend := (fails_of_error hs h).1.ending_eq_none hs hplace
  obtain ⟨rest, hrest⟩ := List.head?_eq_some_iff.1 hm
  obtain ⟨s', hs'⟩ := exists_splits rest
  obtain ⟨both, hboth, -, hending⟩ := hs.append_line hend hs'
  rw [← hrest, ← String.toList_append] at hboth
  suffices behind : ∃ after, e'.position = .locate (source.toList ++ after) by
    obtain ⟨after, hafter⟩ := behind
    rw [hafter, offset_locate_append, String.ofList_toList]
    omega
  cases (fails_of_error hboth h').1 with
  | short _ _ _ => exact ⟨more.toList, congrArg Position.locate (String.toList_append ..)⟩
  | @flawed before start flaw hcut hflaw =>
    rw [hending] at hflaw
    obtain ⟨line, hline⟩ := hs'.ending_isSuffix hflaw
    rw [String.toList_append, hrest, ← hline, ← List.cons_append, ← List.append_assoc] at hcut
    exact ⟨_, congrArg Position.locate (List.append_cancel_right hcut).symm⟩

end

/-! ## Loading a longer source -/

section
variable {β σ ν : Type} [Bindings β ν] {source : String} {m m' : Machine β σ}

theorem ok_of_load {u : Term ν} (h : (Machine.load source).run m = .value u m') :
    ∃ t, (parse source).result = .ok t := by
  rw [Machine.run_load] at h
  cases hparse : (parse source).result with
  | ok t => exact ⟨t, rfl⟩
  | error e =>
    rw [hparse] at h
    cases h

theorem error_of_load {e : SourceError}
    (h : (Machine.load source).run m = .halted (.error (.source e)) m') :
    (parse source).result = .error e := by
  rw [Machine.run_load] at h
  cases hparse : (parse source).result with
  | ok t =>
    rw [hparse] at h
    cases h
  | error e' =>
    rw [hparse] at h
    cases h
    rfl

theorem load_congr {source' : String} (h : parse source' = parse source) (m : Machine β σ) :
    (Machine.load source').run m = (Machine.load source).run m := by
  rw [Machine.run_load, Machine.run_load, h]

/-- What reading finds at the front of a source does not depend on what follows. If neither a
letter nor a digit nor an underscore follows, then an expression is read as before, with the same
names, and a number out of range is the same error at the same place. A character that starts no
token is so whatever follows. And if a source ends too early, then a longer one that goes on with a
new line has no error in front of that end. -/
theorem load_append (source more : String) (m m' : Machine β σ) :
    (Stops isWordChar more.toList → ∀ u : Term ν, (Machine.load source).run m = .value u m' →
      (Machine.load (source ++ more)).run m = .value u m') ∧
    (∀ e : SourceError, (∃ c, e.flaw = .unknownCharacter c) ∨
        (∃ digits, e.flaw = .numberTooLarge digits) ∧ Stops isWordChar more.toList →
      (Machine.load source).run m = .halted (.error (.source e)) m' →
      (Machine.load (source ++ more)).run m = .halted (.error (.source e)) m') ∧
    (∀ e : SourceError, (e.flaw = .noExpression ∨ ∃ tag i, e.flaw = .missingArgument tag i) →
      more.toList.head? = some '\n' →
      (Machine.load source).run m = .halted (.error (.source e)) m' → ∀ e' m'',
      (Machine.load (source ++ more)).run m = .halted (.error (.source e')) m'' →
      source.utf8ByteSize ≤ e'.position.offset) := by
  refine ⟨fun hm u h => ?_, ?_, ?_⟩
  · obtain ⟨t, ht⟩ := ok_of_load h
    rw [load_congr (parse_append_of_ok ht hm), h]
  · rintro ⟨flaw, position⟩ hflaw h
    dsimp only at hflaw
    rw [← h]
    refine load_congr (parse_append_of_flawed (error_of_load h) (fun start hstart => ?_) ?_) m
    · obtain ⟨c, rfl⟩ | ⟨⟨digits, rfl⟩, hm⟩ := hflaw
      · exact hstart.append_of_unknownCharacter _
      · exact hstart.append_of_numberTooLarge hm
    · rintro (_ | _) rfl <;> rcases hflaw with ⟨_, h⟩ | ⟨⟨_, h⟩, -⟩ <;> cases h
  · rintro e hflaw hm h e' m'' h'
    refine le_offset_of_line (error_of_load h) (fun start hstart => ?_) hm (error_of_load h')
    obtain hflaw | ⟨tag, i, hflaw⟩ := hflaw <;> rw [hflaw] at hstart <;> cases hstart

/-- A comment behind an expression, a name behind `@`, a blank behind a number out of range, and a
second line behind one that lacks an argument. -/
theorem load_append_examples :
    let m : Machine Store Unit := ⟨∅, (), Draws.seeded 0⟩
    let tooLarge : SourceError := ⟨.numberTooLarge "99999999999999999999", ⟨2, 1, 3⟩⟩
    (∃ t m', (Machine.load "+ 1 x").run m = .value t m' ∧
      (Machine.load ("+ 1 x" ++ "# y")).run m = .value t m') ∧
    (∃ m', (Machine.load "+ x @").run m =
        .halted (.error (.source ⟨.unknownCharacter '@', ⟨4, 1, 5⟩⟩)) m' ∧
      (Machine.load ("+ x @" ++ "y")).run m =
        .halted (.error (.source ⟨.unknownCharacter '@', ⟨4, 1, 5⟩⟩)) m') ∧
    (∃ m', (Machine.load "! 99999999999999999999").run m = .halted (.error (.source tooLarge)) m' ∧
      (Machine.load ("! 99999999999999999999" ++ " 9")).run m =
        .halted (.error (.source tooLarge)) m') ∧
    ∃ e' m'', (Machine.load ("+ 1" ++ "\n@")).run m = .halted (.error (.source e')) m'' ∧
      "+ 1".utf8ByteSize ≤ e'.position.offset := by
  intro m tooLarge
  have sum : (parse "+ 1 x").result = .ok (.binary (.arith .add) (.lit (.number 1)) (.var "x")) := by
    decide +kernel
  have unknown : (parse "+ x @").result = .error ⟨.unknownCharacter '@', ⟨4, 1, 5⟩⟩ := by
    decide +kernel
  have large : (parse "! 99999999999999999999").result = .error tooLarge := by decide +kernel
  have short : (parse "+ 1").result = .error ⟨.missingArgument '+' 1, ⟨3, 1, 4⟩⟩ := by
    decide +kernel
  have second : (parse ("+ 1" ++ "\n@")).result = .error ⟨.unknownCharacter '@', ⟨4, 2, 1⟩⟩ := by
    decide +kernel
  have hash : Stops isWordChar "# y".toList := by
    intro c hc
    cases hc
    rfl
  have blank : Stops isWordChar " 9".toList := by
    intro c hc
    cases hc
    rfl
  have hsum := Machine.run_load "+ 1 x" m
  have hunknown := Machine.run_load "+ x @" m
  have hlarge := Machine.run_load "! 99999999999999999999" m
  have hshort := Machine.run_load "+ 1" m
  have hsecond := Machine.run_load ("+ 1" ++ "\n@") m
  rw [sum] at hsum
  rw [unknown] at hunknown
  rw [large] at hlarge
  rw [short] at hshort
  rw [second] at hsecond
  exact ⟨⟨_, _, hsum, (load_append "+ 1 x" "# y" m _).1 hash _ hsum⟩,
    ⟨_, hunknown, (load_append "+ x @" "y" m _).2.1 _ (.inl ⟨_, rfl⟩) hunknown⟩,
    ⟨_, hlarge, (load_append "! 99999999999999999999" " 9" m _).2.1 _
      (.inr ⟨⟨_, rfl⟩, blank⟩) hlarge⟩,
    ⟨_, _, hsecond,
      (load_append "+ 1" "\n@" m _).2.2 _ (.inr ⟨_, _, rfl⟩) rfl hshort _ _ hsecond⟩⟩

end

end KnightLang.Source
