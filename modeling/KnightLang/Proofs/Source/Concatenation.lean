/-
Sources one behind the other. A newline between two sources keeps their tokens apart: it closes a
comment that is still open, ends the last token of the first source and is filler in front of the
second (`Splits.append_line`). So `;` in front of two sources reads as the sequence of what they
hold, if there is nothing but filler behind the expression in the first (`parse_sequence`).
-/
import KnightLang.Proofs.Source.Counting

namespace KnightLang.Source

/-! ## Filler in front and behind -/

theorem Filler.append {f g : List Char} (hf : Filler f) (hg : Filler g) : Filler (f ++ g) := by
  induction hf with
  | nil => exact hg
  | char hc _ ih => exact .char hc ih
  | @comment text cs ht _ ih =>
    rw [List.append_assoc, List.cons_append]
    exact .comment ht ih

/-- With a newline behind it, a source without tokens is filler. -/
theorem filler_of_finished {cs : List Char} (h : Begins cs .finished) : Filler (cs ++ ['\n']) := by
  cases h with
  | finished hf => exact hf.append (.char isFiller_newline .nil)
  | comment hf ht =>
    rw [List.append_assoc]
    exact hf.append (.comment ht .nil)

theorem Begins.prepend {f cs : List Char} {l : Lexeme} (hf : Filler f) (h : Begins cs l) :
    Begins (f ++ cs) l := by
  rw [begins_iff] at h ⊢
  rw [← h]
  unfold nextLexeme
  rw [skipFiller_append hf]

theorem Splits.prepend {f cs : List Char} {s : TokenStream} (hf : Filler f) (h : Splits cs s) :
    Splits (f ++ cs) s := by
  cases h with
  | finished hb => exact .finished (hb.prepend hf)
  | invalid hb => exact .invalid (hb.prepend hf)
  | token hb hs => exact .token (hb.prepend hf) hs

/-! ## Two sources -/

theorem Stops.append {p : Char → Bool} {rest more : List Char} (h : Stops p rest)
    (hm : Stops p more) : Stops p (rest ++ more) := by
  cases rest with
  | nil => exact hm
  | cons c rest => exact h

/-- A token ends where it did, if what stands behind the source does not prolong it. -/
theorem Begins.append {cs rest more : List Char} {token : Token} (h : Begins cs (.token token rest))
    (hm : Stops token.goesOn (rest ++ more)) :
    Begins (cs ++ more) (.token token (rest ++ more)) := by
  cases h with
  | token hf hs _ =>
    rw [List.append_assoc]
    exact .token hf hs hm

theorem Begins.stops {cs rest : List Char} {token : Token} (h : Begins cs (.token token rest)) :
    Stops token.goesOn rest := by
  cases h with
  | token _ _ hr => exact hr

/-- The tokens of two sources with a newline between them are those of the first, followed by those
of the second, and end as the second does. -/
theorem Splits.append_line {cs more : List Char} {s s' : TokenStream} (h : Splits cs s)
    (hend : s.ending = none) (h' : Splits more s') :
    ∃ both, Splits (cs ++ '\n' :: more) both ∧ both.words = s.words ++ s'.words ∧
      both.ending = s'.ending := by
  induction h with
  | finished hb =>
    refine ⟨s', ?_, rfl, rfl⟩
    rw [List.append_cons]
    exact h'.prepend (filler_of_finished hb)
  | invalid _ => cases hend
  | @token cs rest token s hb _ ih =>
    obtain ⟨both, hboth, hwords, hending⟩ := ih hend
    have ends : Stops token.goesOn ('\n' :: more) := by
      intro c hc
      cases hc
      exact goesOn_of_startsFiller (by decide) token
    refine ⟨both.cons token (rest ++ '\n' :: more), .token (hb.append (hb.stops.append ends)) hboth,
      ?_, hending⟩
    rw [TokenStream.words_cons, hwords]
    rfl

/-! ## Sources with one expression -/

/-- A source holds this expression first, and nothing but filler behind it. -/
def HoldsOnly (source : String) (t : Term String) : Prop :=
  ∃ rest, (readFrom [] [] source.toList).ending = .complete t rest ∧ Begins rest .finished

/-- Behind each of its tokens, a source splits into the tokens after it. -/
theorem Splits.behind {cs : List Char} {s : TokenStream} (h : Splits cs s)
    {before more : List (Token × List Char)} {last : Token × List Char}
    (hs : s.tokens = before ++ last :: more) : Splits last.2 ⟨more, s.ending⟩ := by
  induction h generalizing before with
  | finished _ => cases before <;> cases hs
  | invalid _ => cases before <;> cases hs
  | token _ hsplits ih =>
    cases before with
    | nil =>
      cases hs
      exact hsplits
    | cons first before => exact ih (List.cons.inj hs).2

/-- The tokens of such a source are those of the expression. -/
theorem HoldsOnly.splits {source : String} {t : Term String} (h : HoldsOnly source t) :
    ∃ s, Splits source.toList s ∧ s.ending = none ∧ s.words = t.tokens := by
  obtain ⟨rest, hread, hrest⟩ := h
  obtain ⟨s, hs⟩ := exists_splits source.toList
  rcases readFrom_spec hs allOpen_nil [] with ⟨before, last, t', hc⟩ | ⟨inner, hx⟩
  · obtain ⟨more, htokens⟩ := hc.tokens
    rw [hc.reading] at hread
    cases hread
    -- No token is found behind the last one of the expression.
    obtain ⟨rfl, hend⟩ := TokenStream.mk.inj (splits_unique (.finished hrest) (hs.behind htokens))
    refine ⟨s, hs, hend, ?_⟩
    rw [TokenStream.words, htokens, hc.words.1]
    simp
  · rw [hx.reading, TokenStream.endingWith] at hread
    cases hend : s.ending <;> rw [hend] at hread <;> cases hread

theorem HoldsOnly.parse {source : String} {t : Term String} (h : HoldsOnly source t) :
    parse source = ⟨.ok t, namesOf t.tokens⟩ := by
  obtain ⟨s, hs, -, hwords⟩ := h.splits
  exact parse_of_words hs (hwords.trans (List.append_nil _).symm)

theorem namesOf_append (tokens more : List Token) :
    namesOf (tokens ++ more) = namesOf tokens ++ namesOf more := List.filterMap_append

/-- Two sources behind a `;` are read as a sequence. -/
theorem parse_sequence {s₁ s₂ : String} {t₁ t₂ : Term String} (h₁ : HoldsOnly s₁ t₁)
    (h₂ : (parse s₂).result = .ok t₂) :
    KnightLang.parse ("; " ++ s₁ ++ "\n" ++ s₂) =
      ⟨.ok (.binary .seq t₁ t₂), (KnightLang.parse s₁).names ++ (KnightLang.parse s₂).names⟩ := by
  obtain ⟨first, hfirst, hend, hwords₁⟩ := h₁.splits
  obtain ⟨second, hsecond⟩ := exists_splits s₂.toList
  obtain ⟨more, hwords₂⟩ := words_of_parse hsecond h₂
  obtain ⟨both, hboth, hwords, -⟩ := hfirst.append_line hend hsecond
  have blank : Filler [' '] := .char (by decide) .nil
  -- `;` is a token by itself, and the blank is filler in front of the two sources.
  have sequence : Begins (';' :: ' ' :: (s₁.toList ++ '\n' :: s₂.toList))
      (.token (.builtin (.binary .seq)) (' ' :: (s₁.toList ++ '\n' :: s₂.toList))) :=
    @Begins.token [] [';'] _ _ .nil (.builtin (by simp) fun _ => rfl) fun _ _ => rfl
  have whole : Splits ("; " ++ s₁ ++ "\n" ++ s₂).toList
      (both.cons (.builtin (.binary .seq)) (' ' :: (s₁.toList ++ '\n' :: s₂.toList))) := by
    simpa using Splits.token sequence (hboth.prepend blank)
  have words :
      (both.cons (.builtin (.binary .seq)) (' ' :: (s₁.toList ++ '\n' :: s₂.toList))).words =
        (Term.binary .seq t₁ t₂).tokens ++ more := by
    rw [TokenStream.words_cons, hwords, hwords₁, hwords₂]
    simp [Term.tokens]
  rw [parse_of_words whole words, h₁.parse, parse_eq_of_ok h₂, ← namesOf_append]
  rfl

end KnightLang.Source
