/-
Descent and stack. `parse` keeps the open calls of a reading on a stack, where reading by descent
enters each argument anew. Both read the same (`faithful_readTerm`), as soon as the descent may go
deeper than the source is long; so the laws of descent are laws of `parse` (`reading_progresses`).
-/
import KnightLang.Proofs.Source.Counting
import KnightLang.Proofs.Source.Descent

namespace KnightLang

namespace Source

namespace Descent

/-! ## Descent and stack -/

/-- What is read at the end of a reading: a term and the source behind it, or a flaw and the source
from there on. -/
def outcome : Ending → Except (Flaw × List Char) (Term String × List Char)
  | .complete t rest => .ok (t, rest)
  | .invalid flaw start => .error (flaw, start)
  | .incomplete frames => .error (incompleteFlaw frames, [])

/-- Goes on with reading after a token. -/
def resume (c : Cursor) : Progress → Reading
  | .complete t => ⟨.complete t c.rest, c.names⟩
  | .pending frames => readFrom frames c.names c.rest

/-- A call as far as it has been read: it is open as long as it lacks an argument. -/
def opened (f : Builtin) (args : List (Term String)) (frames : List Frame) : Progress :=
  match f.call? args with
  | some call => supply call frames
  | none => .pending (⟨f, args⟩ :: frames)

/-- Reading on with calls open takes the next term as reading it by descent finds it. -/
def Follows (frames : List Frame) (reading : Reading) : Attempt × Cursor → Prop
  | (.found t, c) => reading = resume c (supply t frames)
  | (.declined, c) => reading = ⟨.incomplete frames, c.names⟩
  | (.failed flaw start, c) =>
    outcome reading.ending = .error (flaw, start) ∧ reading.names = c.names
  | (.unfinished, _) => False

/-- A reader that reads, from cursors close enough to the end of the source, what is read with a
stack of open calls. -/
structure Faithful (n : Nat) (r : Reader) : Prop where
  forward : Forward r
  declined : ∀ c c', r c = (.declined, c') → c'.rest = []
  follows : ∀ (frames : List Frame) (c : Cursor), c.rest.length < n →
    Follows frames (readFrom frames c.names c.rest) (r c)

theorem follows_arguments {n : Nat} {inner : Reader} (h : Faithful n inner) {f : Builtin} {k : Nat}
    {args : List (Term String)} (hk : args.length + k = f.arity) (frames : List Frame)
    {c : Cursor} (hc : c.rest.length < n) :
    Follows frames (resume c (opened f args frames)) (arguments inner f k args c) := by
  induction k generalizing args c with
  | zero =>
    obtain ⟨call, hcall⟩ := Option.isSome_iff_exists.1 ((Builtin.call?_isSome f args).2 hk)
    simp only [opened, arguments, hcall, Follows]
  | succ k ih =>
    have hlacks : f.call? args = none := by
      rw [← Option.not_isSome_iff_eq_none, Builtin.call?_isSome]
      omega
    have hnext := h.follows (⟨f, args⟩ :: frames) c hc
    have hmoves := (h.forward.moves c).rest.length_le
    rw [opened, hlacks, resume]
    unfold arguments
    split <;> rename_i hread <;> rw [hread] at hnext hmoves
    · -- The argument is supplied to the call, which may thereby be complete.
      rename_i t c'
      have hnext : readFrom (⟨f, args⟩ :: frames) c.names c.rest =
          resume c' (opened f (args ++ [t]) frames) := hnext
      rw [hnext]
      refine ih ?_ (Nat.lt_of_le_of_lt hmoves hc)
      rw [List.length_append, List.length_singleton]
      omega
    · rename_i c'
      have hnext : readFrom (⟨f, args⟩ :: frames) c.names c.rest =
          ⟨.incomplete (⟨f, args⟩ :: frames), c'.names⟩ := hnext
      rw [hnext, h.declined c c' hread]
      exact ⟨rfl, rfl⟩
    · exact hnext
    · exact hnext.elim

/-- Reading on behind a token. -/
theorem readFrom_eq_resume {cs : List Char} {token : Token} {c : Cursor} {names : List String}
    (h : nextLexeme cs = .token token c.rest) (hnames : c.names = token.name?.toList ++ names)
    (frames : List Frame) : readFrom frames names cs = resume c (accept frames token) := by
  rw [readFrom_token h, ← hnames]
  cases accept frames token <;> rfl

theorem follows_finish {n : Nat} {inner : Reader} (h : Faithful n inner) {cs : List Char}
    {token : Token} {c : Cursor} (hcs : nextLexeme cs = .token token c.rest)
    (hc : c.rest.length < n) (frames : List Frame) :
    Follows frames (readFrom frames c.names cs) (finish inner token c) := by
  cases token with
  | literal l => exact readFrom_eq_resume hcs rfl frames
  | name x => exact readFrom_eq_resume (c := c.meet x) hcs rfl frames
  | builtin f =>
    rw [readFrom_eq_resume hcs rfl frames]
    exact follows_arguments h (Nat.zero_add _) frames hc

theorem follows_readToken {n : Nat} {inner : Reader} (h : Faithful n inner) {cs : List Char}
    {c : Cursor} (hskip : c.rest = skipFiller cs) (hc : c.rest.length ≤ n) (frames : List Frame) :
    Follows frames (readFrom frames c.names cs) (readToken inner c) := by
  have lexeme := nextLexeme.eq_def cs
  rw [← hskip] at lexeme
  unfold readToken
  split <;> rename_i hrest <;> simp only [hrest] at lexeme
  · exact readFrom_finished lexeme frames c.names
  · rename_i d start
    rw [← hrest] at lexeme
    split <;> rename_i hscan <;> simp only [hscan] at lexeme
    · rw [readFrom_invalid lexeme]
      exact ⟨rfl, rfl⟩
    · rename_i r
      rcases r with flaw | ⟨token, rest⟩
      · rw [readFrom_invalid lexeme]
        exact ⟨rfl, (Cursor.names_passTo [] c).symm⟩
      · -- A token takes a character at least, so what it starts is close enough to the end.
        obtain ⟨word, hne, hcut⟩ := scan_split hscan
        have behind : (c.passTo rest).rest = rest := Cursor.rest_passTo ⟨word, hcut⟩
        have hlength : rest.length < n := by
          have := List.length_pos_iff.2 hne
          rw [← hcut, List.length_append] at hc
          omega
        rw [← behind] at hlength lexeme
        have follows := follows_finish h lexeme hlength frames
        rwa [Cursor.names_passTo] at follows

section
variable {order : List Scanner} (ho : order.Perm scanners)
include ho

/-- Reading by descent reads what is read with a stack. -/
theorem faithful_readTerm (n : Nat) : Faithful n (readTerm order n) := by
  induction n with
  | zero =>
    exact ⟨forward_readTerm ho 0, fun _ _ h => rest_of_declined ho h, fun _ _ h => by cases h⟩
  | succ n ih =>
    refine ⟨forward_readTerm ho _, fun _ _ h => rest_of_declined ho h, fun frames c hc => ?_⟩
    have skipped : (c.passTo (skipFiller c.rest)).rest = skipFiller c.rest :=
      Cursor.rest_passTo (skipFiller_isSuffix c.rest)
    have hlength := (skipFiller_isSuffix c.rest).length_le
    rw [readTerm_succ ho]
    have := follows_readToken ih skipped (by rw [skipped]; omega) frames
    rwa [Cursor.names_passTo] at this

/-- A depth of calls beyond the length of a source suffices to read it. -/
theorem readSource_eq {n : Nat} {source : String} (hn : source.length < n) :
    readSource order n source = some (parse source) := by
  rw [← String.length_toList] at hn
  have h := (faithful_readTerm ho n).follows [] (.start source) hn
  unfold readSource parse
  cases hread : readTerm order n (.start source) with
  | mk a c =>
    rw [hread] at h
    cases a with
    | found t =>
      have h : readFrom [] [] source.toList = ⟨.complete t c.rest, c.names⟩ := h
      simp only [h]
    | declined =>
      have h : readFrom [] [] source.toList = ⟨.incomplete [], c.names⟩ := h
      simp only [h, incompleteFlaw]
    | failed flaw start =>
      have h : outcome (readFrom [] [] source.toList).ending = .error (flaw, start) ∧
        (readFrom [] [] source.toList).names = c.names := h
      obtain ⟨hending, hnames⟩ := h
      simp only [hnames]
      cases he : (readFrom [] [] source.toList).ending with
      | complete t rest =>
        rw [he] at hending
        cases hending
      | invalid flaw' start' =>
        rw [he] at hending
        cases hending
        rfl
      | incomplete frames =>
        rw [he] at hending
        cases hending
        simp only [List.length_nil, Nat.sub_zero, List.take_length]
    | unfinished => exact h.elim

end

/-! ## The laws of reading by descent -/

/-- Reading by descent makes progress. Let scanners be tried in any order. Then every place that the
cursor comes to is one between two characters of the source, or at an end of it. There is no term
only if the source ends, and a term that is found has as many characters at least as it has nodes. A
scanner that declines leaves the cursor where it is and the names as they are, and of any two
scanners one declines; so the order makes no difference. Calls do not nest deeper than the source is
long: to read it comes to an end, and comes to what `parse` makes of it. -/
theorem reading_progresses (source : String) {order : List Scanner} (ho : order.Perm scanners)
    (n : Nat) :
    (∀ place ∈ (readTerm order n (.start source)).2.trail,
      ∃ before, source = before ++ String.ofList place) ∧
    (∀ c c', readTerm order n c = (.declined, c') → c'.rest = []) ∧
    (∀ c t c', readTerm order n c = (.found t, c') →
      0 < t.nodes ∧ c'.rest.length + t.nodes ≤ c.rest.length) ∧
    (∀ s c c', attempt (readTerm order n) s c = (.declined, c') → c' = c) ∧
    (∀ c, order.Pairwise fun s s' => (attempt (readTerm order n) s c).1 = .declined ∨
      (attempt (readTerm order n) s' c).1 = .declined) ∧
    (∀ order' : List Scanner, order'.Perm scanners → readTerm order' n = readTerm order n) ∧
    (∀ c, c.rest.length < n → (readTerm order n c).1 ≠ .unfinished) ∧
    (source.length < n → readSource order n source = some (parse source)) := by
  have faithful := faithful_readTerm ho n
  refine ⟨?_, faithful.declined, fun c t c' h => ⟨t.nodes_pos, faithful.forward.found c t c' h⟩,
    fun s c c' h => eq_of_attempt_declined h, fun c => ?_, fun order' ho' => ?_, fun c hc => ?_,
    readSource_eq ho⟩
  · intro place hplace
    have suffix : place <:+ source.toList := by
      rcases (faithful.forward.moves (.start source)).trail place hplace with h | h
      · have whole : place = source.toList := List.mem_singleton.1 h
        exact whole ▸ List.suffix_refl _
      · exact h
    obtain ⟨before, hcut⟩ := suffix
    refine ⟨String.ofList before, ?_⟩
    rw [← String.ofList_append, hcut, String.ofList_toList]
  · have one := (scanners_pairwise c.rest).perm ho.symm Or.symm
    refine one.imp fun h => ?_
    rwa [attempt_fst_eq_declined_iff, attempt_fst_eq_declined_iff]
  · rw [readTerm_perm ho, readTerm_perm ho']
  · have read := faithful.follows [] c hc
    intro hunfinished
    cases hread : readTerm order n c with
    | mk a c' =>
      rw [hread] at hunfinished read
      obtain rfl : a = .unfinished := hunfinished
      exact read

/-- Scanners tried in the reverse order find four nodes in eleven characters. There is no term in a
comment, and in `!` the argument is missed. -/
theorem reading_progresses_reversed :
    let order := scanners.reverse
    let source := "; O 'é' {x}"
    order.Perm scanners ∧ source.length < 12 ∧
      readSource order 12 source = some (parse source) ∧
      readSource order 12 "!" = some (parse "!") ∧
      (∃ t c', readTerm order 12 (.start source) = (.found t, c') ∧ t.nodes = 4 ∧
        0 < t.nodes ∧ c'.rest.length + t.nodes ≤ (Cursor.start source).rest.length) ∧
      (∃ c', readTerm order 12 (.start "# é") = (.declined, c') ∧ c'.rest = []) ∧
      attempt (readTerm order 12) scanName (.start "O 1") = (.declined, .start "O 1") := by
  intro order source
  have perm : order.Perm scanners := List.reverse_perm scanners
  let t : Term String := .binary .seq (.unary .output (.lit (.text "é"))) (.var "x")
  have hfound : readTerm order 12 (.start source) =
      (.found t, (readTerm order 12 (.start source)).2) := Prod.ext (by decide +kernel) rfl
  have hnone : readTerm order 12 (.start "# é") =
      (.declined, (readTerm order 12 (.start "# é")).2) := Prod.ext (by decide +kernel) rfl
  have short : source.length < 12 := by decide +kernel
  obtain ⟨-, declined, found, declines, -, -, -, reads⟩ := reading_progresses source perm 12
  have missed := (reading_progresses "!" perm 12).2.2.2.2.2.2.2 (by decide +kernel)
  have name : attempt (readTerm order 12) scanName (.start "O 1") = (.declined, .start "O 1") :=
    Prod.ext rfl (declines scanName (.start "O 1") _ (Prod.ext rfl rfl))
  exact ⟨perm, short, reads short, missed, ⟨t, _, hfound, rfl, found _ _ _ hfound⟩,
    ⟨_, hnone, declined _ _ hnone⟩, name⟩

end Descent

end Source

end KnightLang
