/-
Tokens: literals, names and builtins. There is one scanner for each form a token takes; a scanner
declines a source that starts otherwise, and accepts or rejects the token at its front. The forms
start with different characters, so the order in which scanners are tried does not matter.
-/
import KnightLang.Number.Range
import KnightLang.Source.Error
import KnightLang.Source.Filler
import KnightLang.Term.Basic

namespace KnightLang

/-- A unit of a source: a literal, a variable's name, or a builtin before its arguments. -/
inductive Token
  | literal (value : Literal)
  | name (name : String)
  | builtin (f : Builtin)
deriving DecidableEq

/-- The variable that a token names. -/
def Token.name? : Token → Option String
  | name x => some x
  | _ => none

namespace Source

/-! ## Scanners -/

/-- Reads the token at the front of a source without filler: declines it (`none`), rejects it, or
gives it with the source after it. -/
abbrev Scanner : Type := List Char → Option (Except Flaw (Token × List Char))

/-- Whether a character continues a keyword. -/
def isKeywordTail (c : Char) : Bool := c.isUpper || c.isDigit || c == '_'

/-- Whether a character starts a name. -/
def isNameStart (c : Char) : Bool := c.isLower || c == '_'

/-- Whether a character continues a name. -/
def isNameTail (c : Char) : Bool := isNameStart c || c.isDigit

/-- Whether a character opens a text, and closes a text that it opened. -/
def isQuote (c : Char) : Bool := c == '\x27' || c == '\x22'

/-- A number is the longest run of digits, and must be in range. -/
def scanNumber : Scanner := fun cs =>
  let digits := cs.takeWhile Char.isDigit
  if digits.isEmpty then none
  else
    match Number.fit? (Text.digitsValue digits) with
    | some n => some (.ok (.literal (.number n), cs.dropWhile Char.isDigit))
    | none => some (.error (.numberTooLarge (String.ofList digits)))

/-- A truth value is a keyword that starts with `T` or `F`. -/
def scanTruth : Scanner
  | 'T' :: cs => some (.ok (.literal (.bool true), cs.dropWhile isKeywordTail))
  | 'F' :: cs => some (.ok (.literal (.bool false), cs.dropWhile isKeywordTail))
  | _ => none

/-- A text runs from a quote to the next quote of the same kind. -/
def scanText : Scanner
  | [] => none
  | quote :: cs =>
    if isQuote quote then
      match cs.dropWhile (· != quote) with
      | [] => some (.error .unclosedText)
      | _ :: rest => some (.ok (.literal (.text (String.ofList (cs.takeWhile (· != quote)))), rest))
    else none

/-- Null is a keyword that starts with `N`. -/
def scanNull : Scanner
  | 'N' :: cs => some (.ok (.literal .null, cs.dropWhile isKeywordTail))
  | _ => none

/-- A name is a small letter or underscore with the small letters, underscores and digits after
it. -/
def scanName : Scanner
  | [] => none
  | c :: cs =>
    if isNameStart c then
      some (.ok (.name (String.ofList (c :: cs.takeWhile isNameTail)), cs.dropWhile isNameTail))
    else none

/-- A builtin is its tag, which is a keyword if it is a letter. -/
def scanBuiltin : Scanner
  | [] => none
  | c :: cs =>
    (Builtin.ofTag? c).map fun f =>
      .ok (.builtin f, if c.isUpper then cs.dropWhile isKeywordTail else cs)

/-- A scanner for each form of token. -/
def scanners : List Scanner := [scanNumber, scanTruth, scanText, scanNull, scanName, scanBuiltin]

/-- Reads the token at the front of a source without filler. -/
def scan : Scanner := fun cs => scanners.findSome? (· cs)

/-! ## What is left after a token -/

theorem cons_dropWhile_split (p : Char → Bool) (c : Char) (cs : List Char) :
    ∃ t, t ≠ [] ∧ t ++ cs.dropWhile p = c :: cs :=
  ⟨c :: cs.takeWhile p, by simp, by rw [List.cons_append, List.takeWhile_append_dropWhile]⟩

theorem scanNumber_split {cs rest : List Char} {token : Token}
    (h : scanNumber cs = some (.ok (token, rest))) : ∃ t, t ≠ [] ∧ t ++ rest = cs := by
  unfold scanNumber at h
  simp only at h
  split at h
  · cases h
  · rename_i hd
    split at h
    · cases h
      exact ⟨cs.takeWhile Char.isDigit, by simpa using hd, List.takeWhile_append_dropWhile⟩
    · cases h

theorem scanTruth_split {cs rest : List Char} {token : Token}
    (h : scanTruth cs = some (.ok (token, rest))) : ∃ t, t ≠ [] ∧ t ++ rest = cs := by
  unfold scanTruth at h
  split at h
  · cases h; exact cons_dropWhile_split _ _ _
  · cases h; exact cons_dropWhile_split _ _ _
  · cases h

theorem scanText_split {cs rest : List Char} {token : Token}
    (h : scanText cs = some (.ok (token, rest))) : ∃ t, t ≠ [] ∧ t ++ rest = cs := by
  unfold scanText at h
  split at h
  · cases h
  · rename_i quote cs
    split at h
    · split at h
      · cases h
      · rename_i q rest' hr
        cases h
        refine ⟨quote :: cs.takeWhile (· != quote) ++ [q], by simp, ?_⟩
        rw [List.append_assoc, List.singleton_append, ← hr, List.cons_append,
          List.takeWhile_append_dropWhile]
    · cases h

theorem scanNull_split {cs rest : List Char} {token : Token}
    (h : scanNull cs = some (.ok (token, rest))) : ∃ t, t ≠ [] ∧ t ++ rest = cs := by
  unfold scanNull at h
  split at h
  · cases h; exact cons_dropWhile_split _ _ _
  · cases h

theorem scanName_split {cs rest : List Char} {token : Token}
    (h : scanName cs = some (.ok (token, rest))) : ∃ t, t ≠ [] ∧ t ++ rest = cs := by
  unfold scanName at h
  split at h
  · cases h
  · split at h
    · cases h; exact cons_dropWhile_split _ _ _
    · cases h

theorem scanBuiltin_split {cs rest : List Char} {token : Token}
    (h : scanBuiltin cs = some (.ok (token, rest))) : ∃ t, t ≠ [] ∧ t ++ rest = cs := by
  unfold scanBuiltin at h
  split at h
  · cases h
  · rename_i c cs
    obtain ⟨f, -, hf⟩ := Option.map_eq_some_iff.1 h
    cases hf
    split
    · exact cons_dropWhile_split _ _ _
    · exact ⟨[c], by simp, rfl⟩

/-- A token takes at least one character, and what is left is the rest of the source. -/
theorem scan_split {cs rest : List Char} {token : Token}
    (h : scan cs = some (.ok (token, rest))) : ∃ t, t ≠ [] ∧ t ++ rest = cs := by
  obtain ⟨s, hs, h⟩ := List.exists_of_findSome?_eq_some h
  simp only [scanners, List.mem_cons, List.not_mem_nil, or_false] at hs
  rcases hs with rfl | rfl | rfl | rfl | rfl | rfl
  · exact scanNumber_split h
  · exact scanTruth_split h
  · exact scanText_split h
  · exact scanNull_split h
  · exact scanName_split h
  · exact scanBuiltin_split h

/-! ## The next token of a source -/

/-- What follows the leading filler of a source. -/
inductive Lexeme
  /-- A token, and the source after it. -/
  | token (token : Token) (rest : List Char)
  /-- No token, and the source from there on. -/
  | invalid (flaw : Flaw) (start : List Char)
  /-- The end of the source. -/
  | finished

/-- Skips filler and reads a token. -/
def nextLexeme (cs : List Char) : Lexeme :=
  match skipFiller cs with
  | [] => .finished
  | c :: start =>
    match scan (c :: start) with
    | none => .invalid (.unknownCharacter c) (c :: start)
    | some (.error flaw) => .invalid flaw (c :: start)
    | some (.ok (token, rest)) => .token token rest

/-- Reading a token leaves a shorter source. -/
theorem length_lt_of_nextLexeme {cs rest : List Char} {token : Token}
    (h : nextLexeme cs = .token token rest) : rest.length < cs.length := by
  unfold nextLexeme at h
  split at h
  · cases h
  · rename_i c start hskip
    split at h
    · cases h
    · cases h
    · rename_i hscan
      cases h
      obtain ⟨t, ht, hsplit⟩ := scan_split hscan
      have hle := (skipFiller_isSuffix cs).length_le
      rw [hskip, ← hsplit, List.length_append] at hle
      have := List.length_pos_iff.2 ht
      omega

end Source

end KnightLang
