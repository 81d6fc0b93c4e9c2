/-
Backslash escapes in printed text. In a format an octal code has up to three digits; in other texts
it may have a zero in front of them, and `\c` ends all printing.
-/
import KnightLang.Text.Raw

namespace KnightLang.Shell

open Text (Raw)

/-- The number of the octal digits that a text starts with, at most `count` of them, after a value,
and what follows them. -/
def octal : (count : Nat) → (value : Nat) → Raw → Nat × Raw
  | 0, value, s => (value, s)
  | _, value, [] => (value, [])
  | count + 1, value, c :: s =>
    match Raw.digit? 8 c with
    | some d => octal count (8 * value + d) s
    | none => (value, c :: s)

/-- The byte with a number, less the bits that a byte has no room for. -/
def byteChar (n : Nat) : Char := Char.ofNat (n % 256)

/-- The character that a letter after a backslash stands for. -/
def escapedLetter? : Char → Option Char
  | '\\' => some '\\'
  | 'a' => some '\x07'
  | 'b' => some '\x08'
  | 'e' => some '\x1b'
  | 'f' => some '\x0c'
  | 'n' => some '\n'
  | 'r' => some '\x0d'
  | 't' => some '\t'
  | 'v' => some '\x0b'
  | _ => none

/-- The character that an escape stands for, given what follows its backslash, and what follows the
escape. -/
def formatEscape? : Raw → Option (Char × Raw)
  | [] => none
  | c :: s =>
    if (Raw.digit? 8 c).isSome then
      let (n, rest) := octal 3 0 (c :: s)
      some (byteChar n, rest)
    else (escapedLetter? c).map fun d => (d, s)

/-- The first escape or character of a text that is not empty: the character it stands for, if it
does not end all printing, and what follows it. -/
def firstEscaped (c : Char) (s : Raw) : Option (Char × Raw) :=
  if c ≠ '\\' then some (c, s)
  else
    match s with
    | 'c' :: _ => none
    | '0' :: digits =>
      let (n, rest) := octal 3 0 digits
      some (byteChar n, rest)
    | _ => some ((formatEscape? s).getD ('\\', s))

/-- A text with its escapes expanded, after the given characters, last one first, and whether it
ends all printing. -/
def expandAfter : (fuel : Nat) → (before : Raw) → Raw → Raw × Bool
  | 0, before, _ => (before.reverse, false)
  | _, before, [] => (before.reverse, false)
  | fuel + 1, before, c :: s =>
    match firstEscaped c s with
    | some (d, rest) => expandAfter fuel (d :: before) rest
    | none => (before.reverse, true)

/-- A text with its escapes expanded, and whether it ends all printing. -/
def expandEscapes (s : Raw) : Raw × Bool := expandAfter (s.length + 1) [] s

/-- What a list of texts prints: their expansions with blanks between them, then the ending, up to
where one of them ends printing. -/
def echoed (ending : Raw) : List Raw → Raw
  | [] => ending
  | s :: ss =>
    match expandEscapes s with
    | (text, true) => text
    | (text, false) => text ++ (if ss.isEmpty then ending else ' ' :: echoed ending ss)

end KnightLang.Shell
