/-
Reading by descent. A term is read by trying the scanners one after another at a cursor; a builtin
then reads its arguments in the same way, one call deeper. The scanners may be tried in any order, as
two of them never accept or reject the same source (`readTerm_perm`). The cursor only ever moves
forward, by as many characters at least as the term that is found has nodes (`forward_readTerm`).
-/
import KnightLang.Proofs.Source.Prefix
import KnightLang.Proofs.Source.Spelling
import KnightLang.Source.Reading

namespace KnightLang

namespace Source

namespace Descent

/-! ## Cursors -/

/-- A place in a source that is being read. -/
structure Cursor where
  /-- The source from there on. -/
  rest : List Char
  /-- The names read so far, the last one first. -/
  names : List String
  /-- What was left of the source at every place up to this one, the last one first. -/
  trail : List (List Char)

namespace Cursor

/-- The cursor at the start of a source. -/
def start (source : String) : Cursor := ⟨source.toList, [], [source.toList]⟩

/-- The cursor behind some more characters, each of which it passes. -/
def pass : Nat → Cursor → Cursor
  | 0, c => c
  | n + 1, c =>
    match c.rest with
    | [] => c
    | _ :: rest => pass n ⟨rest, c.names, rest :: c.trail⟩

/-- The cursor where no more than the given end of the source is left. -/
def passTo (rest : List Char) (c : Cursor) : Cursor := c.pass (c.rest.length - rest.length)

/-- The cursor behind a name. -/
def meet (x : String) (c : Cursor) : Cursor := { c with names := x :: c.names }

end Cursor

/-! ## Reading at a cursor -/

/-- What reading a term at a cursor comes to. -/
inductive Attempt
  /-- There is none. -/
  | declined
  | found (t : Term String)
  /-- Something else is there, which starts at the given end of the source. -/
  | failed (flaw : Flaw) (start : List Char)
  /-- Calls are nested too deep. -/
  | unfinished
deriving DecidableEq

/-- A way to read a term at a cursor, which leaves the cursor behind it. -/
abbrev Reader : Type := Cursor → Attempt × Cursor

/-- Reads the last `k` arguments of a call. -/
def arguments (inner : Reader) (f : Builtin) : (k : Nat) → List (Term String) → Reader
  | 0, args, c =>
    match f.call? args with
    | some call => (.found call, c)
    | none => (.declined, c)
  | k + 1, args, c =>
    match inner c with
    | (.found t, c) => arguments inner f k (args ++ [t]) c
    | (.declined, c) => (.failed (.missingArgument f.tag args.length) c.rest, c)
    | (.failed flaw start, c) => (.failed flaw start, c)
    | (.unfinished, c) => (.unfinished, c)

/-- Reads what a token starts. -/
def finish (inner : Reader) : Token → Reader
  | .literal l, c => (.found (.lit l), c)
  | .name x, c => (.found (.var x), c.meet x)
  | .builtin f, c => arguments inner f f.arity [] c

/-- Reads on from what a scanner answers. One that rejects a source may have looked at all of it. -/
def answer (inner : Reader) : Except Flaw (Token × List Char) → Reader
  | .ok (token, rest), c => finish inner token (c.passTo rest)
  | .error flaw, c => (.failed flaw c.rest, c.passTo [])

/-- Reads a term of the form that a scanner accepts. -/
def attempt (inner : Reader) (s : Scanner) : Reader := fun c =>
  match s c.rest with
  | none => (.declined, c)
  | some r => answer inner r c

/-- What an attempt comes to, or another one from where the first has left the cursor, if that
declined. -/
def orElse (next : Reader) : Attempt × Cursor → Attempt × Cursor
  | (.declined, c) => next c
  | result => result

/-- Reads in the first way that does not decline. -/
def firstOf : List Reader → Reader
  | [], c => (.declined, c)
  | r :: rs, c => orElse (firstOf rs) (r c)

/-- Reads a term, with calls nested at most `n` deep and scanners tried in the given order. -/
def readTerm (order : List Scanner) : (n : Nat) → Reader
  | 0, c => (.unfinished, c)
  | n + 1, c =>
    let c := c.passTo (skipFiller c.rest)
    match c.rest with
    | [] => (.declined, c)
    | d :: _ =>
      orElse (fun c => (.failed (.unknownCharacter d) c.rest, c))
        (firstOf (order.map (attempt (readTerm order n))) c)

/-- Reads a source, with calls nested at most `n` deep. -/
def readSource (order : List Scanner) (n : Nat) (source : String) : Option Parsed :=
  match readTerm order n (.start source) with
  | (.found t, c) => some ⟨.ok t, c.names.reverse⟩
  | (.declined, c) => some ⟨.error ⟨.noExpression, .locate source.toList⟩, c.names.reverse⟩
  | (.failed flaw start, c) =>
    let before := source.toList.take (source.toList.length - start.length)
    some ⟨.error ⟨flaw, .locate before⟩, c.names.reverse⟩
  | (.unfinished, _) => none

/-! ## How the cursor moves -/

/-- The cursor has moved forward, over characters of the source. -/
structure Cursor.Moves (c c' : Cursor) : Prop where
  rest : c'.rest <:+ c.rest
  trail : ∀ place ∈ c'.trail, place ∈ c.trail ∨ place <:+ c.rest

namespace Cursor

theorem Moves.refl (c : Cursor) : c.Moves c := ⟨List.suffix_refl _, fun _ h => .inl h⟩

theorem Moves.trans {c₁ c₂ c₃ : Cursor} (h : c₁.Moves c₂) (h' : c₂.Moves c₃) : c₁.Moves c₃ where
  rest := h'.rest.trans h.rest
  trail := by
    intro place hplace
    rcases h'.trail place hplace with hplace | hsuffix
    · exact h.trail place hplace
    · exact .inr (hsuffix.trans h.rest)

theorem moves_meet (x : String) (c : Cursor) : c.Moves (c.meet x) :=
  ⟨List.suffix_refl _, fun _ h => .inl h⟩

theorem moves_pass (n : Nat) (c : Cursor) : c.Moves (c.pass n) := by
  induction n generalizing c with
  | zero => exact .refl c
  | succ n ih =>
    unfold pass
    split
    · exact .refl c
    · rename_i d rest hrest
      refine Moves.trans ⟨?_, ?_⟩ (ih _)
      · rw [hrest]
        exact List.suffix_cons d rest
      · intro place hplace
        rcases List.mem_cons.1 hplace with rfl | hplace
        · exact .inr (hrest ▸ List.suffix_cons d place)
        · exact .inl hplace

theorem rest_pass (n : Nat) (c : Cursor) : (c.pass n).rest = c.rest.drop n := by
  induction n generalizing c with
  | zero => rfl
  | succ n ih =>
    unfold pass
    split <;> rename_i hrest <;> rw [hrest]
    · exact List.drop_nil.symm
    · rw [ih, List.drop_succ_cons]

@[simp] theorem names_pass (n : Nat) (c : Cursor) : (c.pass n).names = c.names := by
  induction n generalizing c with
  | zero => rfl
  | succ n ih =>
    unfold pass
    split
    · rfl
    · exact ih _

theorem moves_passTo (rest : List Char) (c : Cursor) : c.Moves (c.passTo rest) := moves_pass _ c

@[simp] theorem names_passTo (rest : List Char) (c : Cursor) : (c.passTo rest).names = c.names :=
  names_pass _ c

theorem rest_passTo {rest : List Char} {c : Cursor} (h : rest <:+ c.rest) :
    (c.passTo rest).rest = rest := by
  rw [passTo, rest_pass]
  exact (List.suffix_iff_eq_drop.1 h).symm

end Cursor

/-! ## Ways to read that decline -/

section
variable {inner : Reader} {c : Cursor}

/-- Once a call has begun, something is found. -/
theorem arguments_ne_declined {f : Builtin} {k : Nat} {args : List (Term String)}
    (h : args.length + k = f.arity) (c : Cursor) : (arguments inner f k args c).1 ≠ .declined := by
  induction k generalizing args c with
  | zero =>
    obtain ⟨call, hcall⟩ := Option.isSome_iff_exists.1 ((Builtin.call?_isSome f args).2 h)
    simp only [arguments, hcall]
    exact nofun
  | succ k ih =>
    unfold arguments
    split
    · refine ih ?_ _
      rw [List.length_append, List.length_singleton]
      omega
    all_goals exact nofun

theorem answer_ne_declined (r : Except Flaw (Token × List Char)) (c c' : Cursor) :
    answer inner r c ≠ (.declined, c') := by
  rcases r with flaw | ⟨_ | _ | f, rest⟩
  · exact nofun
  · exact nofun
  · exact nofun
  · intro h
    exact arguments_ne_declined (Nat.zero_add _) _ (congrArg Prod.fst h)

theorem orElse_answer (next : Reader) (r : Except Flaw (Token × List Char)) :
    orElse next (answer inner r c) = answer inner r c := by
  unfold orElse
  split
  · rename_i h
    exact absurd h (answer_ne_declined r c _)
  · rfl

theorem attempt_fst_eq_declined_iff {s : Scanner} :
    (attempt inner s c).1 = .declined ↔ s c.rest = none := by
  unfold attempt
  cases s c.rest with
  | none => exact ⟨fun _ => rfl, fun _ => rfl⟩
  | some r => exact ⟨fun h => (answer_ne_declined r c _ (Prod.ext h rfl)).elim, nofun⟩

/-- To decline is to leave the cursor where it is, and the names as they are. -/
theorem eq_of_attempt_declined {s : Scanner} {c' : Cursor}
    (h : attempt inner s c = (.declined, c')) : c' = c := by
  have declines := attempt_fst_eq_declined_iff.1 (congrArg Prod.fst h)
  simp only [attempt, declines] at h
  exact (congrArg Prod.snd h).symm

/-- Trying scanners is to read on from what the first of them answers. -/
theorem firstOf_attempts (order : List Scanner) : firstOf (order.map (attempt inner)) c =
    match order.findSome? (· c.rest) with
    | none => (.declined, c)
    | some r => answer inner r c := by
  induction order with
  | nil => rfl
  | cons s order ih =>
    rw [List.map_cons, firstOf, List.findSome?_cons, attempt]
    cases s c.rest with
    | none => exact ih
    | some r => exact orElse_answer _ r

end

/-- Reads a term behind filler, by all scanners together. -/
def readToken (inner : Reader) : Reader := fun c =>
  match c.rest with
  | [] => (.declined, c)
  | d :: _ =>
    match scan c.rest with
    | none => (.failed (.unknownCharacter d) c.rest, c)
    | some r => answer inner r c

section
variable {order : List Scanner} (ho : order.Perm scanners)
include ho

theorem readTerm_succ (n : Nat) (c : Cursor) : readTerm order (n + 1) c =
    readToken (readTerm order n) (c.passTo (skipFiller c.rest)) := by
  unfold readTerm readToken
  simp only
  split
  · rfl
  · rw [firstOf_attempts, findSome?_eq_scan ho]
    cases scan (c.passTo (skipFiller c.rest)).rest with
    | none => rfl
    | some r => exact orElse_answer _ r

/-- The order in which scanners are tried makes no difference. -/
theorem readTerm_perm (n : Nat) : readTerm order n = readTerm scanners n := by
  induction n with
  | zero => rfl
  | succ n ih =>
    funext c
    rw [readTerm_succ ho, readTerm_succ (.refl _), ih]

/-- No term is there only at the end of the source. -/
theorem rest_of_declined {n : Nat} {c c' : Cursor} (h : readTerm order n c = (.declined, c')) :
    c'.rest = [] := by
  cases n with
  | zero => cases h
  | succ n =>
    rw [readTerm_succ ho, readToken] at h
    split at h
    · rename_i hrest
      cases h
      exact hrest
    · split at h
      · cases h
      · exact absurd h (answer_ne_declined _ _ _)

end

/-! ## Progress -/

/-- The cursor moves forward, and by as many characters at least as the term that is found has
nodes. -/
structure Forward (r : Reader) : Prop where
  moves : ∀ c : Cursor, c.Moves (r c).2
  found : ∀ (c : Cursor) t c', r c = (.found t, c') → c'.rest.length + t.nodes ≤ c.rest.length

section
variable {inner : Reader} (hinner : Forward inner)
include hinner

theorem moves_arguments (f : Builtin) (k : Nat) (args : List (Term String)) (c : Cursor) :
    c.Moves (arguments inner f k args c).2 := by
  induction k generalizing args c with
  | zero =>
    unfold arguments
    split <;> exact .refl c
  | succ k ih =>
    have moves := hinner.moves c
    unfold arguments
    split <;> rename_i h <;> rw [h] at moves
    · exact moves.trans (ih _ _)
    all_goals exact moves

/-- Arguments take a character for each of their nodes, so a call does once its tag is read. -/
theorem arguments_found {f : Builtin} {k : Nat} {args : List (Term String)} {c c' : Cursor}
    {t : Term String} (h : arguments inner f k args c = (.found t, c')) :
    c'.rest.length + t.nodes ≤ c.rest.length + 1 + (args.flatMap Term.tokens).length := by
  induction k generalizing args c with
  | zero =>
    unfold arguments at h
    split at h
    · rename_i call hcall
      cases h
      rw [← Term.length_tokens, Builtin.tokens_of_call? hcall, List.length_cons]
      omega
    · cases h
  | succ k ih =>
    unfold arguments at h
    split at h
    · rename_i a c₁ ha
      have harg := hinner.found c a c₁ ha
      have hrest := ih h
      rw [List.flatMap_append, List.length_append, List.flatMap_singleton,
        Term.length_tokens] at hrest
      omega
    all_goals cases h

theorem moves_answer (r : Except Flaw (Token × List Char)) (c : Cursor) :
    c.Moves (answer inner r c).2 := by
  rcases r with flaw | ⟨token, rest⟩
  · exact c.moves_passTo []
  · refine (c.moves_passTo rest).trans ?_
    cases token with
    | literal l => exact .refl _
    | name x => exact Cursor.moves_meet x _
    | builtin f => exact moves_arguments hinner f _ [] _

/-- A token is a character at least. -/
theorem answer_found {c c' : Cursor} {r : Except Flaw (Token × List Char)} {t : Term String}
    (hscan : scan c.rest = some r) (h : answer inner r c = (.found t, c')) :
    c'.rest.length + t.nodes ≤ c.rest.length := by
  rcases r with flaw | ⟨token, rest⟩
  · cases h
  · obtain ⟨word, hne, hcut⟩ := scan_split hscan
    have hrest : (c.passTo rest).rest = rest := Cursor.rest_passTo ⟨word, hcut⟩
    have hlength : rest.length + 1 ≤ c.rest.length := by
      have := List.length_pos_iff.2 hne
      rw [← hcut, List.length_append]
      omega
    cases token with
    | literal l | name x =>
      cases h
      rw [← hrest] at hlength
      exact hlength
    | builtin f =>
      have := arguments_found hinner h
      rw [hrest] at this
      exact this.trans hlength

theorem forward_readToken : Forward (readToken inner) where
  moves := by
    intro c
    unfold readToken
    split
    · exact .refl c
    · split
      · exact .refl c
      · exact moves_answer hinner _ c
  found := by
    intro c t c' h
    unfold readToken at h
    split at h
    · cases h
    · split at h
      · cases h
      · rename_i hscan
        exact answer_found hinner hscan h

end

theorem forward_readTerm {order : List Scanner} (ho : order.Perm scanners) (n : Nat) :
    Forward (readTerm order n) := by
  induction n with
  | zero => exact ⟨fun c => .refl c, fun c t c' h => by cases h⟩
  | succ n ih =>
    have token := forward_readToken ih
    have skip (c : Cursor) := c.moves_passTo (skipFiller c.rest)
    refine ⟨fun c => ?_, fun c t c' h => ?_⟩
    · rw [readTerm_succ ho]
      exact (skip c).trans (token.moves _)
    · rw [readTerm_succ ho] at h
      exact (token.found _ t c' h).trans (skip c).rest.length_le

end Descent

end Source

end KnightLang
