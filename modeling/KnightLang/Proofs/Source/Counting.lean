/-
Reading a source is counting its tokens. An expression is complete as soon as the counter of
`Prefix` is zero, and reading stops there; a flaw in front of that place is the error; and at the
end of a source that is too short, the innermost call that lacks an argument is to blame.

The open calls of a reading hold the tokens read so far (`openTokens`), and every one of them lacks
an argument (`AllOpen`). So the counter is positive as long as calls are open, and it is zero once
an expression is complete.
-/
import KnightLang.Machine.Basic
import KnightLang.Proofs.Source.Prefix
import KnightLang.Proofs.Source.Stream

namespace KnightLang.Source

/-! ## Open calls -/

/-- The tokens of a call as far as it has been read. -/
def Frame.tokens (frame : Frame) : List Token :=
  .builtin frame.builtin :: frame.args.flatMap Term.tokens

/-- The tokens that open calls have taken, the outermost call first. -/
def openTokens : List Frame → List Token
  | [] => []
  | frame :: outer => openTokens outer ++ frame.tokens

/-- Every open call lacks an argument. -/
def AllOpen (frames : List Frame) : Prop := ∀ fr ∈ frames, fr.args.length < fr.builtin.arity

theorem allOpen_nil : AllOpen [] := by simp [AllOpen]

/-- What a reading has taken so far. -/
def Progress.tokens : Progress → List Token
  | .complete t => t.tokens
  | .pending frames => openTokens frames

/-- Every call that a reading has left open lacks an argument. -/
def Progress.AllOpen : Progress → Prop
  | .complete _ => True
  | .pending frames => Source.AllOpen frames

theorem counter_openTokens {frames : List Frame} (h : AllOpen frames) :
    0 < counter (openTokens frames) := by
  induction frames with
  | nil => simp [openTokens]
  | cons frame outer ih =>
    have hframe := h frame (List.mem_cons_self ..)
    have houter := ih fun fr hfr => h fr (List.mem_cons_of_mem _ hfr)
    rw [openTokens, counter_append, Frame.tokens, counter_cons, counter_flatMap, Token.arity]
    omega

/-- A finished term is taken over by the open calls, and calls that lack nothing are closed. -/
theorem supply_spec {frames : List Frame} (h : AllOpen frames) (t : Term String) :
    (supply t frames).AllOpen ∧ (supply t frames).tokens = openTokens frames ++ t.tokens := by
  induction frames generalizing t with
  | nil => exact ⟨trivial, rfl⟩
  | cons frame outer ih =>
    have hframe := h frame (List.mem_cons_self ..)
    have houter : AllOpen outer := fun fr hfr => h fr (List.mem_cons_of_mem _ hfr)
    unfold supply
    split
    · -- The call is complete, and is supplied to the calls around it.
      rename_i call hcall
      obtain ⟨hopen, htokens⟩ := ih houter call
      refine ⟨hopen, ?_⟩
      rw [htokens, Builtin.tokens_of_call? hcall]
      simp [openTokens, Frame.tokens]
    · rename_i hcall
      have hne := Builtin.length_ne_of_call? hcall
      rw [List.length_append, List.length_singleton] at hne
      refine ⟨fun fr hfr => ?_, by simp [Progress.tokens, openTokens, Frame.tokens]⟩
      rcases List.mem_cons.1 hfr with rfl | hfr
      · show (frame.args ++ [t]).length < frame.builtin.arity
        rw [List.length_append, List.length_singleton]
        omega
      · exact houter fr hfr

theorem accept_spec {frames : List Frame} (h : AllOpen frames) (token : Token) :
    (accept frames token).AllOpen ∧
      (accept frames token).tokens = openTokens frames ++ [token] := by
  cases token with
  | literal l => exact supply_spec h (.lit l)
  | name x => exact supply_spec h (.var x)
  | builtin f =>
    simp only [accept]
    cases hcall : f.call? [] with
    | some call =>
      obtain ⟨hopen, htokens⟩ := supply_spec h call
      refine ⟨hopen, ?_⟩
      rw [htokens, Builtin.tokens_of_call? hcall, List.flatMap_nil]
    | none =>
      have hne := Builtin.length_ne_of_call? hcall
      refine ⟨fun fr hfr => ?_, rfl⟩
      rcases List.mem_cons.1 hfr with rfl | hfr
      · exact Nat.pos_of_ne_zero (Ne.symm hne)
      · exact h fr hfr

/-! ## Reading on -/

theorem readFrom_finished {cs : List Char} (h : nextLexeme cs = .finished) (frames : List Frame)
    (names : List String) : readFrom frames names cs = ⟨.incomplete frames, names⟩ := by
  rw [readFrom]
  split <;> rename_i h' <;> rw [h] at h' <;> cases h'

theorem readFrom_invalid {cs start : List Char} {flaw : Flaw}
    (h : nextLexeme cs = .invalid flaw start) (frames : List Frame) (names : List String) :
    readFrom frames names cs = ⟨.invalid flaw start, names⟩ := by
  rw [readFrom]
  split <;> rename_i h' <;> rw [h] at h' <;> cases h'
  rfl

theorem readFrom_token {cs rest : List Char} {token : Token}
    (h : nextLexeme cs = .token token rest) (frames : List Frame) (names : List String) :
    readFrom frames names cs = match accept frames token with
      | .complete t => ⟨.complete t rest, token.name?.toList ++ names⟩
      | .pending frames => readFrom frames (token.name?.toList ++ names) rest := by
  rw [readFrom]
  split <;> rename_i h' <;> rw [h] at h' <;> cases h'
  rfl

/-- The variables that tokens name. -/
def namesOf (tokens : List Token) : List String := tokens.filterMap Token.name?

theorem namesOf_cons (token : Token) (tokens : List Token) :
    namesOf (token :: tokens) = token.name?.toList ++ namesOf tokens := by
  unfold namesOf
  cases h : token.name? <;> simp [h]

/-- How a reading ends that finds no complete expression in the tokens of a source. -/
def TokenStream.endingWith (s : TokenStream) (frames : List Frame) : Ending :=
  match s.ending with
  | none => .incomplete frames
  | some (flaw, start) => .invalid flaw start

/-- The counter stays positive along some tokens that open calls take. -/
def StaysOpen (frames : List Frame) (tokens : List Token) : Prop :=
  ∀ u, u <+: tokens → 0 < counter (openTokens frames ++ u)

theorem staysOpen_nil {frames : List Frame} (h : AllOpen frames) : StaysOpen frames [] := by
  intro u hu
  rw [List.prefix_nil.1 hu, List.append_nil]
  exact counter_openTokens h

theorem StaysOpen.cons {frames inner : List Frame} {token : Token} {tokens : List Token}
    (h : AllOpen frames) (hi : openTokens inner = openTokens frames ++ [token])
    (hs : StaysOpen inner tokens) : StaysOpen frames (token :: tokens) := by
  intro u hu
  rcases List.prefix_cons_iff.1 hu with rfl | ⟨v, rfl, hv⟩
  · rw [List.append_nil]
    exact counter_openTokens h
  · have := hs v hv
    rwa [hi, List.append_assoc, List.singleton_append] at this

/-- As long as calls are open, the tokens do not start with a whole expression. -/
theorem StaysOpen.not_prefix {tokens : List Token} (hs : StaysOpen [] tokens) (t : Term String) :
    ¬ t.tokens <+: tokens := by
  intro ht
  have hpos := hs t.tokens ht
  rw [openTokens, List.nil_append, counter_tokens] at hpos
  omega

/-- A reading that completes an expression stops behind its last token. -/
structure Completes (frames : List Frame) (names : List String) (cs : List Char)
    (s : TokenStream) (before : List (Token × List Char)) (last : Token × List Char)
    (t : Term String) : Prop where
  tokens : ∃ more, s.tokens = before ++ last :: more
  reading : readFrom frames names cs =
    ⟨.complete t last.2, (namesOf (before.map Prod.fst ++ [last.1])).reverse ++ names⟩
  term : t.tokens = openTokens frames ++ (before.map Prod.fst ++ [last.1])
  stays : StaysOpen frames (before.map Prod.fst)

/-- The tokens of the expression are the first ones of the source. -/
theorem Completes.words {names : List String} {cs : List Char} {s : TokenStream}
    {before : List (Token × List Char)} {last : Token × List Char} {t : Term String}
    (h : Completes [] names cs s before last t) :
    t.tokens = before.map Prod.fst ++ [last.1] ∧ ∃ more, s.words = t.tokens ++ more := by
  have htokens : t.tokens = before.map Prod.fst ++ [last.1] := h.term
  obtain ⟨more, hmore⟩ := h.tokens
  refine ⟨htokens, more.map Prod.fst, ?_⟩
  rw [TokenStream.words, hmore, htokens]
  simp

/-- A reading that completes no expression takes all tokens. -/
structure Exhausts (frames : List Frame) (names : List String) (cs : List Char)
    (s : TokenStream) (inner : List Frame) : Prop where
  reading : readFrom frames names cs =
    ⟨s.endingWith inner, (namesOf s.words).reverse ++ names⟩
  allOpen : AllOpen inner
  tokens : openTokens inner = openTokens frames ++ s.words
  stays : StaysOpen frames s.words

/-- Reading either completes an expression or takes all tokens. -/
theorem readFrom_spec {cs : List Char} {s : TokenStream} (h : Splits cs s) {frames : List Frame}
    (ho : AllOpen frames) (names : List String) :
    (∃ before last t, Completes frames names cs s before last t) ∨
      ∃ inner, Exhausts frames names cs s inner := by
  induction h generalizing frames names with
  | finished hb =>
    exact .inr ⟨frames, readFrom_finished (begins_iff.1 hb) frames names, ho,
      (List.append_nil _).symm, staysOpen_nil ho⟩
  | invalid hb =>
    exact .inr ⟨frames, readFrom_invalid (begins_iff.1 hb) frames names, ho,
      (List.append_nil _).symm, staysOpen_nil ho⟩
  | @token cs rest token s hb _ ih =>
    have hread := readFrom_token (begins_iff.1 hb) frames names
    obtain ⟨hopen, htokens⟩ := accept_spec ho token
    have hnames (tokens : List Token) :
        (namesOf tokens).reverse ++ (token.name?.toList ++ names) =
          (namesOf (token :: tokens)).reverse ++ names := by
      rw [namesOf_cons]
      cases token.name? <;> simp
    cases ha : accept frames token with
    | complete t =>
      rw [ha] at hread htokens
      refine .inl ⟨[], (token, rest), t, ⟨s.tokens, rfl⟩, ?_, htokens, staysOpen_nil ho⟩
      rw [hread]
      exact congrArg (Reading.mk _) (hnames [])
    | pending inner =>
      -- The token leaves calls open, and the rest of the source is read with these.
      rw [ha] at hread hopen htokens
      rcases ih hopen (token.name?.toList ++ names) with
        ⟨before, last, t, ⟨more, hmore⟩, hr, ht, hs⟩ | ⟨innermost, hr, ho', ht, hs⟩
      · refine .inl ⟨(token, rest) :: before, last, t, ⟨more, by simp [TokenStream.cons, hmore]⟩,
          ?_, ?_, .cons ho htokens hs⟩
        · rw [hread]
          simp only
          rw [hr, hnames]
          rfl
        · rw [ht, show openTokens inner = _ from htokens]
          simp
      · refine .inr ⟨innermost, ?_, ho', ?_, .cons ho htokens hs⟩
        · rw [hread]
          simp only
          rw [hr, hnames]
          rfl
        · rw [ht, show openTokens inner = _ from htokens]
          simp

/-! ## Missing arguments -/

/-- Among the arguments of the builtin at place `i` of some tokens, `n` are complete and the next
one is not. -/
def Lacks (tokens : List Token) (i : Nat) (f : Builtin) (n : Nat) : Prop :=
  n < f.arity ∧ ∃ (before : List Token) (args : List (Term String)) (begun : List Token),
    tokens = before ++ .builtin f :: (args.flatMap Term.tokens ++ begun) ∧
      before.length = i ∧ args.length = n ∧ ∀ t : Term String, ¬ t.tokens <+: begun

/-- In a sequence of terms, no builtin lacks an argument. -/
theorem not_lacks_flatMap {terms : List (Term String)} {before : List Token} {f : Builtin}
    {args : List (Term String)} {begun : List Token} (hlen : args.length < f.arity)
    (h : terms.flatMap Term.tokens = before ++ .builtin f :: (args.flatMap Term.tokens ++ begun)) :
    ∃ t : Term String, t.tokens <+: begun := by
  obtain ⟨rest, hrest⟩ := exists_terms_of_suffix h
  cases rest with
  | nil => cases hrest
  | cons t rest =>
    obtain ⟨token, full, ht, hfull⟩ := t.exists_args
    rw [List.flatMap_cons, ht, List.cons_append] at hrest
    obtain ⟨rfl, hargs⟩ := List.cons.inj hrest
    rw [Token.arity] at hfull
    exact exists_term_of_flatMap (by omega) hargs

/-- The innermost open call is the last one that lacks an argument. -/
theorem lacks_openTokens {frame : Frame} {outer : List Frame} (h : AllOpen (frame :: outer)) :
    Lacks (openTokens (frame :: outer)) (openTokens outer).length frame.builtin frame.args.length ∧
      ∀ j g k, Lacks (openTokens (frame :: outer)) j g k → j ≤ (openTokens outer).length := by
  refine ⟨⟨h frame (List.mem_cons_self ..), openTokens outer, frame.args, [], ?_, rfl, rfl, ?_⟩, ?_⟩
  · rw [List.append_nil]
    rfl
  · intro t ht
    exact t.tokens_ne_nil (List.prefix_nil.1 ht)
  · rintro j g k ⟨hk, before, args, begun, heq, rfl, rfl, hbegun⟩
    by_contra hj
    -- A later builtin stands among the complete arguments of the innermost call.
    have hhead : openTokens outer ++ [.builtin frame.builtin] <+: openTokens (frame :: outer) :=
      ⟨frame.args.flatMap Term.tokens, by simp [openTokens, Frame.tokens]⟩
    have hbefore : before <+: openTokens (frame :: outer) := ⟨_, heq.symm⟩
    obtain ⟨mid, rfl⟩ : openTokens outer ++ [.builtin frame.builtin] <+: before := by
      refine List.prefix_of_prefix_length_le hhead hbefore ?_
      rw [List.length_append, List.length_singleton]
      omega
    have hargs : frame.args.flatMap Term.tokens =
        mid ++ .builtin g :: (args.flatMap Term.tokens ++ begun) := by
      simpa [openTokens, Frame.tokens] using heq
    obtain ⟨t, ht⟩ := not_lacks_flatMap hk hargs
    exact hbegun t ht

/-! ## The result of reading -/

theorem parse_of_completes {source : String} {s : TokenStream}
    {before : List (Token × List Char)} {last : Token × List Char} {t : Term String}
    (h : Completes [] [] source.toList s before last t) :
    parse source = ⟨.ok t, namesOf t.tokens⟩ := by
  have hread := h.reading
  rw [List.append_nil, ← h.words.1] at hread
  unfold parse
  simp only [hread, List.reverse_reverse]

/-- An expression is read as soon as its tokens stand in front. -/
theorem parse_of_words {source : String} {s : TokenStream} (hs : Splits source.toList s)
    {t : Term String} {more : List Token} (hw : s.words = t.tokens ++ more) :
    parse source = ⟨.ok t, namesOf t.tokens⟩ := by
  rcases readFrom_spec hs allOpen_nil [] with
    ⟨before, last, t', h⟩ | ⟨inner, h⟩
  · obtain ⟨-, after, hw'⟩ := h.words
    obtain ⟨rfl, -⟩ := tokens_append_inj (hw.symm.trans hw')
    exact parse_of_completes h
  · exact absurd ⟨more, hw.symm⟩ (h.stays.not_prefix t)

/-- The tokens of an expression that is read stand in the source. -/
theorem words_of_parse {source : String} {s : TokenStream} (hs : Splits source.toList s)
    {t : Term String} (h : (parse source).result = .ok t) : ∃ more, s.words = t.tokens ++ more := by
  rcases readFrom_spec hs allOpen_nil [] with
    ⟨before, last, t', hc⟩ | ⟨inner, hx⟩
  · rw [parse_of_completes hc] at h
    cases h
    exact hc.words.2
  · unfold parse at h
    simp only [hx.reading, TokenStream.endingWith] at h
    cases hend : s.ending <;> rw [hend] at h <;> cases h

/-- The names of an expression that is read are the names among its tokens. -/
theorem parse_eq_of_ok {source : String} {t : Term String} (h : (parse source).result = .ok t) :
    parse source = ⟨.ok t, namesOf t.tokens⟩ := by
  obtain ⟨s, hs⟩ := exists_splits source.toList
  obtain ⟨more, hmore⟩ := words_of_parse hs h
  exact parse_of_words hs hmore

/-! ## The outcome of reading -/

section
variable {β σ ν : Type} [Bindings β ν]

/-- A machine that knows the names of some tokens, too. -/
def knowing (m : Machine β σ) (tokens : List Token) : Machine β σ :=
  { m with bindings := Bindings.registerAll m.bindings (namesOf tokens) }

/-- What counting the tokens `s` of a source says about reading it on a machine. -/
structure Counted (source : String) (s : TokenStream) (m : Machine β σ) : Prop where
  /-- Reading succeeds if and only if the counter reaches zero. -/
  succeeds : (∃ t m', (Machine.load source).run m = .value t m') ↔
    ∃ k ≤ s.words.length, counter (s.words.take k) = 0
  /-- It takes the tokens up to the first time that the counter is zero, and no others. -/
  takes : ∀ k ≤ s.words.length, counter (s.words.take k) = 0 →
    (∀ j < k, counter (s.words.take j) ≠ 0) →
    ∃ t rest, t.tokens = s.words.take k ∧ (s.tokens.take k).getLast?.map Prod.snd = some rest ∧
      (readFrom [] [] source.toList).ending = .complete t rest ∧
      (Machine.load source).run m = .value
        (t.map (Bindings.resolve (knowing m (s.words.take k)).bindings))
        (knowing m (s.words.take k))
  /-- A flaw that comes first is the error. -/
  flawed : (∀ k ≤ s.words.length, counter (s.words.take k) ≠ 0) →
    ∀ flaw start, s.ending = some (flaw, start) → ∃ before, source.toList = before ++ start ∧
      (Machine.load source).run m =
        .halted (.error (.source ⟨flaw, .locate before⟩)) (knowing m s.words)
  /-- A source without tokens holds no expression. -/
  empty : s.words = [] → s.ending = none → (Machine.load source).run m =
    .halted (.error (.source ⟨.noExpression, .locate source.toList⟩)) m
  /-- Otherwise the last builtin that lacks an argument is to blame. -/
  short : (∀ k ≤ s.words.length, counter (s.words.take k) ≠ 0) → s.words ≠ [] → s.ending = none →
    ∃ i f n, Lacks s.words i f n ∧ (∀ j g k, Lacks s.words j g k → j ≤ i) ∧
      (Machine.load source).run m =
        .halted (.error (.source ⟨.missingArgument f.tag n, .locate source.toList⟩))
          (knowing m s.words)

theorem counter_take_pos {words : List Token} (h : StaysOpen [] words) (k : Nat) :
    0 < counter (words.take k) := h _ (List.take_prefix k words)

/-- A completed reading is the one that counting predicts. -/
theorem counted_of_completes {source : String} {s : TokenStream} {before : List (Token × List Char)}
    {last : Token × List Char} {t : Term String} (h : Completes [] [] source.toList s before last t)
    (m : Machine β σ) : Counted source s m := by
  have hparse := parse_of_completes h
  obtain ⟨htokens, after, hwords⟩ := h.words
  obtain ⟨⟨more, hmore⟩, hread, -, hstays⟩ := h
  rw [List.append_nil] at hread
  have hlen : t.tokens.length = before.length + 1 := by
    rw [htokens]
    simp
  have htake : s.words.take t.tokens.length = t.tokens := by
    rw [hwords, List.take_left]
  have hzero : counter (s.words.take t.tokens.length) = 0 := by
    rw [htake, counter_tokens]
  have hle : t.tokens.length ≤ s.words.length := by
    rw [hwords, List.length_append]
    omega
  have hpos : ∀ j < t.tokens.length, 0 < counter (s.words.take j) := by
    intro j hj
    have := counter_take_pos hstays j
    rwa [show s.words.take j = (before.map Prod.fst).take j by
      rw [hwords, List.take_append_of_le_length (by omega), htokens,
        List.take_append_of_le_length (by simp; omega)]]
  have hload : (Machine.load source).run m =
      .value (t.map (Bindings.resolve (knowing m t.tokens).bindings)) (knowing m t.tokens) := by
    rw [Machine.run_load, hparse]
    rfl
  refine ⟨⟨fun _ => ⟨_, hle, hzero⟩, fun _ => ⟨_, _, hload⟩⟩, ?_, ?_, ?_, ?_⟩
  · -- The first zero is behind the last token of the expression.
    intro k _ hk hfirst
    have hkt : k = t.tokens.length := by
      rcases Nat.lt_trichotomy k t.tokens.length with hlt | heq | hgt
      · have := hpos k hlt
        omega
      · exact heq
      · exact absurd hzero (hfirst _ hgt)
    subst hkt
    refine ⟨t, last.2, htake.symm, ?_, by rw [hread], by rw [htake]; exact hload⟩
    have hsplit : s.tokens = (before ++ [last]) ++ more := by
      rw [hmore]
      simp
    rw [hsplit, List.take_left' (by simp [hlen]), List.getLast?_append_cons]
    rfl
  · intro hne
    exact absurd hzero (hne _ hle)
  · intro hnil
    rw [hnil] at hle
    rw [List.length_nil] at hle
    omega
  · intro hne
    exact absurd hzero (hne _ hle)

/-- A reading that takes all tokens is the one that counting predicts. -/
theorem counted_of_exhausts {source : String} {s : TokenStream} {inner : List Frame}
    (hs : Splits source.toList s) (h : Exhausts [] [] source.toList s inner) (m : Machine β σ) :
    Counted source s m := by
  obtain ⟨hread, hopen, htokens, hstays⟩ := h
  rw [List.append_nil] at hread
  rw [openTokens, List.nil_append] at htokens
  have hpos : ∀ k ≤ s.words.length, counter (s.words.take k) ≠ 0 := by
    intro k _
    have := counter_take_pos hstays k
    omega
  have hload {e : SourceError} (he : (parse source).result = .error e) :
      (Machine.load source).run m = .halted (.error (.source e)) (knowing m s.words) := by
    have hnames : (parse source).names = namesOf s.words := by
      unfold parse
      simp only [hread, List.reverse_reverse]
    rw [Machine.run_load, he, hnames]
    rfl
  have hincomplete (hend : s.ending = none) :
      (parse source).result = .error ⟨incompleteFlaw inner, .locate source.toList⟩ := by
    unfold parse
    simp only [hread, TokenStream.endingWith, hend]
  refine ⟨⟨?_, ?_⟩, ?_, ?_, ?_, ?_⟩
  · rintro ⟨t, m', hvalue⟩
    cases he : (parse source).result with
    | error e =>
      rw [hload he] at hvalue
      cases hvalue
    | ok t =>
      obtain ⟨more, hmore⟩ := words_of_parse hs he
      exact absurd ⟨more, hmore.symm⟩ (hstays.not_prefix t)
  · rintro ⟨k, hk, hzero⟩
    exact absurd hzero (hpos k hk)
  · intro k hk hzero
    exact absurd hzero (hpos k hk)
  · intro _ flaw start hend
    obtain ⟨before, hbefore⟩ := hs.ending_isSuffix hend
    refine ⟨before, hbefore.symm, hload ?_⟩
    unfold parse
    simp only [hread, TokenStream.endingWith, hend]
    rw [← hbefore, List.length_append, Nat.add_sub_cancel, List.take_left]
  · intro hnil hend
    have hinner : inner = [] := by
      cases inner with
      | nil => rfl
      | cons frame outer => simp [openTokens, Frame.tokens, hnil] at htokens
    have := hload (hincomplete hend)
    rw [hinner, hnil] at this
    exact this
  · intro _ hne hend
    cases inner with
    | nil => exact absurd htokens.symm hne
    | cons frame outer =>
      obtain ⟨hlacks, hlast⟩ := lacks_openTokens hopen
      rw [htokens] at hlacks hlast
      exact ⟨_, _, _, hlacks, hlast, hload (hincomplete hend)⟩

/-- Reading a source does what counting its tokens says. A source has one sequence of tokens, and
from any machine reading ends as the counter of these tokens tells: with the tokens up to the first
zero, with the flaw in front of it, or with the last builtin that lacks an argument. -/
theorem load_counts_tokens (source : String) (m : Machine β σ) :
    ∃ s, (∀ s', Splits source.toList s' ↔ s' = s) ∧ Counted source s m := by
  obtain ⟨s, hs⟩ := exists_splits source.toList
  refine ⟨s, fun s' => ⟨splits_unique hs, fun h => h ▸ hs⟩, ?_⟩
  rcases readFrom_spec hs allOpen_nil [] with
    ⟨before, last, t, h⟩ | ⟨inner, h⟩
  · exact counted_of_completes h m
  · exact counted_of_exhausts hs h m

end

end KnightLang.Source
