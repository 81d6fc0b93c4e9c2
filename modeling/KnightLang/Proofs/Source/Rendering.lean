/-
Renderings. A term is rendered by its tokens in prefix order, each in any of its spellings, with
filler in front and some filler between them. Reading undoes every rendering, whatever filler
starts the text behind it, and reads nothing but terms that have a rendering.
-/
import KnightLang.Proofs.Source.Counting

namespace KnightLang

/-! ## Terms that can be written -/

/-- Whether a literal can be written: a number without a sign, a text between quotes of one kind. -/
def Literal.Renderable : Literal → Prop
  | number n => 0 ≤ n.toInt
  | text s => '\x27' ∉ s.toList ∨ '\x22' ∉ s.toList
  | bool _ => True
  | null => True

namespace Source

/-- A small letter or underscore, followed by small letters, underscores and digits. -/
def IsName (x : String) : Prop :=
  ∃ c tail, x.toList = c :: tail ∧ isNameStart c = true ∧ ∀ d ∈ tail, isNameTail d = true

end Source

/-- Whether a term can be written. Calls can, since they hold as many arguments as their builtin
takes. -/
def Term.Renderable : Term String → Prop
  | lit l => l.Renderable
  | var x => Source.IsName x
  | nullary _ => True
  | unary _ a => a.Renderable
  | binary _ a b => a.Renderable ∧ b.Renderable
  | ternary _ a b c => a.Renderable ∧ b.Renderable ∧ c.Renderable
  | quaternary _ a b c d => a.Renderable ∧ b.Renderable ∧ c.Renderable ∧ d.Renderable

namespace Source

/-! ## Renderings -/

/-- Tokens in order, each behind some filler. -/
inductive Spaced : List Token → List Char → Prop
  | nil : Spaced [] []
  | cons {token : Token} {tokens : List Token} {filler word cs : List Char} : Filler filler →
      filler ≠ [] → Spells token word → Spaced tokens cs →
      Spaced (token :: tokens) (filler ++ word ++ cs)

/-- Nothing, or a text that starts with filler or a comment. -/
def FollowsToken (cs : List Char) : Prop := ∀ c ∈ cs.head?, startsFiller c = true

/-- The renderings of a term, each with whatever may follow it. -/
inductive Renders (t : Term String) : List Char → Prop
  | intro {token : Token} {tokens : List Token} {filler word body tail : List Char} :
      t.tokens = token :: tokens → Filler filler → Spells token word → Spaced tokens body →
      FollowsToken tail → Renders t (filler ++ word ++ body ++ tail)

/-! ## Spellings of tokens -/

/-- The decimal numeral of a number spells it, also behind zeros. -/
theorem spells_leadingZeros {n : Int64} (h : 0 ≤ n.toInt) (zeros : Nat) :
    Spells (.literal (.number n))
      (List.replicate zeros '0' ++ Nat.toDigits 10 n.toInt.toNat) := by
  refine .number ?_ ?_ ?_
  · simp [Nat.toDigits_ne_nil]
  · intro c hc
    rcases List.mem_append.1 hc with hc | hc
    · rw [List.eq_of_mem_replicate hc]
      decide
    · exact Nat.isDigit_of_mem_toDigits (by decide) (by decide) hc
  · rw [Text.digitsValue, Nat.ofDigitChars_append, Nat.ofDigitChars_replicate_zero, Nat.mul_zero,
      Nat.ofDigitChars_ten_toDigits, Int.toNat_of_nonneg h]

theorem noTail : ∀ c ∈ ([] : List Char), isKeywordTail c = true := by simp

theorem exists_spelling_literal {l : Literal} :
    (∃ word, Spells (.literal l) word) ↔ l.Renderable := by
  constructor
  · rintro ⟨word, h⟩
    cases h with
    | number _ _ hv =>
      rw [Literal.Renderable, ← hv]
      exact Int.natCast_nonneg _
    | truth _ => trivial
    | null _ => trivial
    | @text quote text hq ht =>
      rw [Literal.Renderable, String.toList_ofList]
      rcases isQuote_cases hq with rfl | rfl
      · exact .inl ht
      · exact .inr ht
  · intro h
    cases l with
    | number n => exact ⟨_, spells_leadingZeros h 0⟩
    | text s =>
      rcases h with h | h
      · have := Spells.text (show isQuote '\x27' = true by decide) h
        rw [String.ofList_toList] at this
        exact ⟨_, this⟩
      · have := Spells.text (show isQuote '\x22' = true by decide) h
        rw [String.ofList_toList] at this
        exact ⟨_, this⟩
    | bool b => exact ⟨_, .truth noTail⟩
    | null => exact ⟨_, .null noTail⟩

theorem exists_spelling_name {x : String} : (∃ word, Spells (.name x) word) ↔ IsName x := by
  constructor
  · rintro ⟨word, h⟩
    cases h with
    | name hc ht => exact ⟨_, _, String.toList_ofList, hc, ht⟩
  · rintro ⟨c, tail, hx, hc, ht⟩
    have := Spells.name hc ht
    rw [← hx, String.ofList_toList] at this
    exact ⟨_, this⟩

theorem exists_spelling_builtin (f : Builtin) : ∃ word, Spells (.builtin f) word :=
  ⟨_, .builtin noTail fun _ => rfl⟩

/-- A term can be written if and only if each of its tokens can. -/
theorem renderable_iff (t : Term String) :
    t.Renderable ↔ ∀ token ∈ t.tokens, ∃ word, Spells token word := by
  induction t with
  | lit l => simp [Term.Renderable, Term.tokens, exists_spelling_literal]
  | var x => simp [Term.Renderable, Term.tokens, exists_spelling_name]
  | nullary f => simp [Term.Renderable, Term.tokens, exists_spelling_builtin]
  | unary f a iha => simp [Term.Renderable, Term.tokens, exists_spelling_builtin, iha]
  | binary f a b iha ihb =>
    simp [Term.Renderable, Term.tokens, exists_spelling_builtin, iha, ihb, or_imp, forall_and]
  | ternary f a b c iha ihb ihc =>
    simp [Term.Renderable, Term.tokens, exists_spelling_builtin, iha, ihb, ihc, or_imp, forall_and]
  | quaternary f a b c d iha ihb ihc ihd =>
    simp [Term.Renderable, Term.tokens, exists_spelling_builtin, iha, ihb, ihc, ihd, or_imp,
      forall_and]

/-! ## Renderings are split back -/

theorem followsToken_spaced {tokens : List Token} {cs tail : List Char} (h : Spaced tokens cs)
    (ht : FollowsToken tail) : FollowsToken (cs ++ tail) := by
  cases h with
  | nil => exact ht
  | cons hf hne _ _ =>
    obtain ⟨c, filler, rfl⟩ := List.exists_cons_of_ne_nil hne
    intro d hd
    cases hd
    exact hf.startsFiller_head rfl

theorem stops_of_followsToken {cs : List Char} (h : FollowsToken cs) (token : Token) :
    Stops token.goesOn cs :=
  fun c hc => goesOn_of_startsFiller (h c hc) token

theorem splits_token {token : Token} {filler word rest : List Char} {s : TokenStream}
    (hf : Filler filler) (hw : Spells token word) (hr : FollowsToken rest) (hs : Splits rest s) :
    Splits (filler ++ word ++ rest) (s.cons token rest) :=
  .token (.token hf hw (stops_of_followsToken hr token)) hs

theorem exists_splits_spaced {tokens : List Token} {cs tail : List Char} (h : Spaced tokens cs)
    (ht : FollowsToken tail) : ∃ s more, Splits (cs ++ tail) s ∧ s.words = tokens ++ more := by
  induction h with
  | nil =>
    obtain ⟨s, hs⟩ := exists_splits tail
    exact ⟨s, s.words, hs, rfl⟩
  | @cons token tokens filler word cs hf _ hw hcs ih =>
    obtain ⟨s, more, hs, hwords⟩ := ih
    refine ⟨s.cons token (cs ++ tail), more, ?_, by rw [TokenStream.words_cons, hwords]; rfl⟩
    rw [List.append_assoc]
    exact splits_token hf hw (followsToken_spaced hcs ht) hs

theorem exists_splits_renders {t : Term String} {cs : List Char} (h : Renders t cs) :
    ∃ s more, Splits cs s ∧ s.words = t.tokens ++ more := by
  cases h with
  | @intro token tokens filler word body tail ht hf hw hbody htail =>
    obtain ⟨s, more, hs, hwords⟩ := exists_splits_spaced hbody htail
    refine ⟨s.cons token (body ++ tail), more, ?_, by rw [TokenStream.words_cons, hwords, ht]; rfl⟩
    rw [List.append_assoc]
    exact splits_token hf hw (followsToken_spaced hbody htail) hs

/-! ## Every term that can be written has a rendering -/

theorem exists_spaced {tokens : List Token} (h : ∀ token ∈ tokens, ∃ word, Spells token word) :
    ∃ cs, Spaced tokens cs := by
  induction tokens with
  | nil => exact ⟨[], .nil⟩
  | cons token tokens ih =>
    obtain ⟨cs, hcs⟩ := ih fun t ht => h t (List.mem_cons_of_mem _ ht)
    obtain ⟨word, hw⟩ := h token (List.mem_cons_self ..)
    exact ⟨_, .cons (.char isFiller_newline .nil) (List.cons_ne_nil _ _) hw hcs⟩

theorem exists_renders {t : Term String} (h : t.Renderable) : ∃ cs, Renders t cs := by
  rw [renderable_iff] at h
  obtain ⟨token, tokens, ht⟩ := List.exists_cons_of_ne_nil t.tokens_ne_nil
  rw [ht] at h
  obtain ⟨word, hw⟩ := h token (List.mem_cons_self ..)
  obtain ⟨body, hbody⟩ := exists_spaced fun t ht => h t (List.mem_cons_of_mem _ ht)
  exact ⟨_, .intro ht .nil hw hbody (show FollowsToken [] by simp [FollowsToken])⟩

/-! ## Reading renderings -/

theorem parse_of_renders {source : String} {t : Term String} (h : Renders t source.toList) :
    parse source = ⟨.ok t, namesOf t.tokens⟩ := by
  obtain ⟨s, more, hs, hwords⟩ := exists_splits_renders h
  exact parse_of_words hs hwords

theorem renderable_of_parse {source : String} {t : Term String}
    (h : (parse source).result = .ok t) : t.Renderable := by
  obtain ⟨s, hs⟩ := exists_splits source.toList
  obtain ⟨more, hmore⟩ := words_of_parse hs h
  rw [renderable_iff]
  intro token htoken
  refine hs.exists_spelling token ?_
  rw [hmore]
  exact List.mem_append_left _ htoken

/-- In a store a variable holds its name, so a term is loaded as it is read. -/
theorem load_of_parse {σ : Type} {source : String} {t : Term String} {names : List String}
    (h : parse source = ⟨.ok t, names⟩) (m : Machine Store σ) :
    (Machine.load source).run m =
      .value t { m with bindings := Bindings.registerAll m.bindings names } := by
  rw [Machine.run_load, h]
  show Outcome.value (t.map id) _ = _
  rw [t.map_id]

/-- Reading undoes writing. Every term that can be written has a rendering; from any store, every
rendering of it is read as this term and makes its names known; and every term that is read can be
written. -/
theorem load_renders (σ : Type) :
    (∀ t : Term String, t.Renderable → (∃ source : String, Renders t source.toList) ∧
      ∀ source : String, Renders t source.toList → ∀ m : Machine Store σ,
        (Machine.load source).run m = .value t (knowing m t.tokens)) ∧
      ∀ (source : String) (m m' : Machine Store σ) (t : Term String),
        (Machine.load source).run m = .value t m' → t.Renderable := by
  refine ⟨fun t ht => ⟨?_, fun source h m => load_of_parse (parse_of_renders h) m⟩, ?_⟩
  · obtain ⟨cs, hcs⟩ := exists_renders ht
    exact ⟨String.ofList cs, by rwa [String.toList_ofList]⟩
  · intro source m m' t h
    cases hp : parse source with
    | mk result names =>
      cases result with
      | ok u =>
        rw [load_of_parse hp] at h
        cases h
        exact renderable_of_parse (show (parse source).result = .ok t by rw [hp])
      | error e =>
        rw [Machine.run_load, hp] at h
        cases h

/-- A branch is read back from a text with tails, a comment, leading zeros and more behind it. -/
theorem load_branch :
    let t : Term String := .ternary .branch (.lit (.bool true)) (.lit (.number 7)) (.var "ab")
    let m : Machine Store Unit := ⟨∅, (), Draws.seeded 0⟩
    Renders t "(IF TRUE\t# yes\n 007 ab) O 1".toList ∧
      (Machine.load "(IF TRUE\t# yes\n 007 ab) O 1").run m = .value t (knowing m t.tokens) := by
  intro t m
  have space : Filler [' '] := .char (by decide) .nil
  have comment : Filler ("\t# yes\n ".toList) :=
    .char (by decide) (.comment (show '\n' ∉ " yes".toList by simp) space)
  have seven : Spells (.literal (.number 7)) "007".toList :=
    .number (by simp) (by simp) (by decide +kernel)
  have name : isNameStart 'a' = true ∧ ∀ d ∈ ['b'], isNameTail d = true := by
    simp [isNameStart, isNameTail]
  have arguments : Spaced [.literal (.bool true), .literal (.number 7), .name "ab"]
      " TRUE\t# yes\n 007 ab".toList :=
    .cons space (by decide)
      (.truth (b := true) (show ∀ c ∈ "RUE".toList, _ by simp [isKeywordTail]))
      (.cons comment (by decide) seven
        (.cons space (by decide) (.name name.1 name.2) .nil))
  have renders : Renders t "(IF TRUE\t# yes\n 007 ab) O 1".toList :=
    .intro rfl (.char (by decide) .nil)
      (.builtin (f := .ternary .branch) (show ∀ c ∈ "F".toList, _ by simp [isKeywordTail])
        (by decide))
      arguments
      (show ∀ c ∈ ") O 1".toList.head?, startsFiller c = true by simp; decide)
  have renderable : t.Renderable :=
    ⟨trivial, show 0 ≤ (7 : Int64).toInt by decide, 'a', ['b'], rfl, name⟩
  exact ⟨renders, ((load_renders Unit).1 t renderable).2 _ renders m⟩

end Source

end KnightLang
