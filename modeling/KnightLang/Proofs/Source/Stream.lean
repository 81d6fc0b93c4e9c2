/-
The tokens of a source. `Begins` says what follows the leading filler of a source and `Splits`
cuts a whole source into its tokens, up to the end or up to the first place where no token starts;
both only speak of filler and spellings. Every source splits in exactly one way, and the first
token of that split is the one that `nextLexeme` reads.
-/
import KnightLang.Proofs.Source.Spelling

namespace KnightLang.Source

/-! ## The next token -/

/-- What follows the leading filler of a source. -/
inductive Begins : List Char → Lexeme → Prop
  | token {filler word rest : List Char} {token : Token} : Filler filler → Spells token word →
      Stops token.goesOn rest → Begins (filler ++ word ++ rest) (.token token rest)
  | invalid {filler start : List Char} {flaw : Flaw} : Filler filler → Flawed start flaw →
      Begins (filler ++ start) (.invalid flaw start)
  | finished {filler : List Char} : Filler filler → Begins filler .finished
  /-- A comment that is open at the end is filler, too. -/
  | comment {filler text : List Char} : Filler filler → '\n' ∉ text →
      Begins (filler ++ '#' :: text) .finished

theorem begins_nextLexeme (cs : List Char) : Begins cs (nextLexeme cs) := by
  obtain ⟨filler, rest, rfl, hf, hrest⟩ := exists_filler cs
  unfold nextLexeme
  rcases hrest with ⟨c, start, rfl, hc⟩ | rfl | ⟨text, rfl, ht⟩
  · rw [skipFiller_append hf, skipFiller_of_not_startsFiller hc]
    simp only
    -- What the scanners make of the rest is justified by the spellings.
    cases hscan : scan (c :: start) with
    | none => exact .invalid hf (.unknownCharacter (startsNothing_of_scan start hc hscan))
    | some r =>
      have := scan_answers hscan
      cases r with
      | error flaw => exact .invalid hf this
      | ok p =>
        obtain ⟨word, hw, hs, hr⟩ := this
        rw [hw, ← List.append_assoc]
        exact .token hf hs hr
  · rw [skipFiller_append hf, List.append_nil]
    exact .finished hf
  · rw [skipFiller_openComment hf ht]
    exact .comment hf ht

theorem nextLexeme_of_begins {cs : List Char} {l : Lexeme} (h : Begins cs l) :
    nextLexeme cs = l := by
  unfold nextLexeme
  cases h with
  | @token filler word rest token hf hs hr =>
    obtain ⟨c, tail, rfl⟩ := List.exists_cons_of_ne_nil (ne_nil_of_spells hs)
    have hscan := scan_spelling hs hr
    rw [List.append_assoc, skipFiller_append hf, List.cons_append,
      skipFiller_of_not_startsFiller (startsFiller_of_spells hs)]
    rw [List.cons_append] at hscan
    simp only [hscan]
  | invalid hf hflaw =>
    obtain ⟨c, rest, rfl, hc⟩ := startsFiller_of_flawed hflaw
    rw [skipFiller_append hf, skipFiller_of_not_startsFiller hc]
    rcases scan_flawed hflaw with hscan | ⟨hscan, d, rest', heq, rfl⟩
    · simp only [hscan]
    · cases heq
      simp only [hscan]
  | finished hf =>
    rw [← List.append_nil cs, skipFiller_append hf]
    rfl
  | comment hf ht => rw [skipFiller_openComment hf ht]

/-- Reading the next token finds what the grammar says is there. -/
theorem begins_iff {cs : List Char} {l : Lexeme} : Begins cs l ↔ nextLexeme cs = l :=
  ⟨nextLexeme_of_begins, fun h => h ▸ begins_nextLexeme cs⟩

theorem begins_unique {cs : List Char} {l l' : Lexeme} (h : Begins cs l) (h' : Begins cs l') :
    l = l' := (begins_iff.1 h).symm.trans (begins_iff.1 h')

/-! ## All tokens -/

/-- The tokens of a source, each with the source after it, and the flaw that ends them with the
source from there on, or nothing if the source ends. -/
structure TokenStream where
  tokens : List (Token × List Char)
  ending : Option (Flaw × List Char)

namespace TokenStream

/-- The tokens without the places where they end. -/
def words (s : TokenStream) : List Token := s.tokens.map Prod.fst

/-- A stream with one more token in front. -/
def cons (token : Token) (rest : List Char) (s : TokenStream) : TokenStream :=
  ⟨(token, rest) :: s.tokens, s.ending⟩

@[simp] theorem words_cons (token : Token) (rest : List Char) (s : TokenStream) :
    (s.cons token rest).words = token :: s.words := rfl

end TokenStream

/-- How a source splits into tokens from left to right. -/
inductive Splits : List Char → TokenStream → Prop
  | finished {cs : List Char} : Begins cs .finished → Splits cs ⟨[], none⟩
  | invalid {cs start : List Char} {flaw : Flaw} : Begins cs (.invalid flaw start) →
      Splits cs ⟨[], some (flaw, start)⟩
  | token {cs rest : List Char} {token : Token} {s : TokenStream} : Begins cs (.token token rest) →
      Splits rest s → Splits cs (s.cons token rest)

theorem exists_splits (cs : List Char) : ∃ s, Splits cs s := by
  induction hn : cs.length using Nat.strongRecOn generalizing cs with
  | ind n ih =>
    subst hn
    have h := begins_nextLexeme cs
    cases hl : nextLexeme cs with
    | token token rest =>
      obtain ⟨s, hs⟩ := ih rest.length (length_lt_of_nextLexeme hl) rest rfl
      exact ⟨s.cons token rest, .token (hl ▸ h) hs⟩
    | invalid flaw start => exact ⟨_, .invalid (hl ▸ h)⟩
    | finished => exact ⟨_, .finished (hl ▸ h)⟩

theorem splits_unique {cs : List Char} {s s' : TokenStream} (h : Splits cs s) (h' : Splits cs s') :
    s' = s := by
  -- The grammar is deterministic, so both splits start with the same lexeme.
  induction h generalizing s' with
  | finished hb =>
    cases h' with
    | finished _ => rfl
    | invalid hb' | token hb' _ => cases begins_unique hb hb'
  | invalid hb =>
    cases h' with
    | invalid hb' =>
      cases begins_unique hb hb'
      rfl
    | finished hb' | token hb' _ => cases begins_unique hb hb'
  | token hb _ ih =>
    cases h' with
    | token hb' hs' =>
      cases begins_unique hb hb'
      rw [ih hs']
    | finished hb' | invalid hb' => cases begins_unique hb hb'

/-- A flaw stands in the source behind the tokens before it. -/
theorem Splits.ending_isSuffix {cs start : List Char} {s : TokenStream} {flaw : Flaw}
    (h : Splits cs s) (he : s.ending = some (flaw, start)) : start <:+ cs := by
  induction h with
  | finished _ => cases he
  | invalid hb =>
    cases he
    cases hb with
    | invalid _ _ => exact List.suffix_append _ _
  | @token cs rest token s hb _ ih =>
    refine (ih he).trans ?_
    cases hb with
    | token _ _ _ => exact List.suffix_append _ _

/-- Every token of a split is spelled somewhere. -/
theorem Splits.exists_spelling {cs : List Char} {s : TokenStream} (h : Splits cs s) :
    ∀ token ∈ s.words, ∃ word, Spells token word := by
  induction h with
  | finished _ => simp [TokenStream.words]
  | invalid _ => simp [TokenStream.words]
  | token hb _ ih =>
    rw [TokenStream.words_cons]
    intro token ht
    rcases List.mem_cons.1 ht with rfl | ht
    · cases hb with
      | token _ hs _ => exact ⟨_, hs⟩
    · exact ih token ht

end KnightLang.Source
