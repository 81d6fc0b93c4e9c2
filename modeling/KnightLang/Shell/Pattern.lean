/-
Patterns for names and values: `*` stands for any text, `?` for any character and a set in square
brackets for one of its characters. A quoted character stands for itself.
-/
import KnightLang.Text.Raw

namespace KnightLang.Shell

open Text (Raw)

/-- A character of a word after expansion. -/
structure Glyph where
  char : Char
  /-- Whether the character stands for itself. -/
  quoted : Bool := false
deriving DecidableEq

/-- The glyphs of a text in quotes. -/
def Glyph.quote (s : Raw) : List Glyph := s.map fun c => { char := c, quoted := true }

/-- The characters of glyphs. -/
def Glyph.text (glyphs : List Glyph) : Raw := glyphs.map Glyph.char

namespace Pattern

/-- A member of a set of characters. -/
inductive Member
  | between (low high : Char)
  | class (name : Raw)

/-- A part of a pattern. -/
inductive Element
  | char (c : Char)
  | any
  | anyText
  | set (inverted : Bool) (members : List Member)

/-- The bytes that a named class has. -/
def classHas (name : Raw) (c : Char) : Bool :=
  let printable := ' ' < c && c ≤ '~'
  match String.ofList name with
  | "alnum" => Raw.isLetter c || Raw.isDigit c
  | "alpha" => Raw.isLetter c
  | "blank" => c = ' ' || c = '\t'
  | "cntrl" => c < ' ' || c = '\x7f'
  | "digit" => Raw.isDigit c
  | "graph" => printable
  | "lower" => Raw.isLower c
  | "print" => printable || c = ' '
  | "punct" => printable && !(Raw.isLetter c || Raw.isDigit c)
  | "space" => Raw.isSpace c
  | "upper" => Raw.isUpper c
  | "xdigit" => (Raw.digit? 16 c).isSome
  | _ => false

/-- The names of the classes. -/
def classNames : List Raw :=
  ["alnum", "alpha", "blank", "cntrl", "digit", "graph", "lower", "print", "punct", "space",
    "upper", "xdigit"].map String.toList

/-- The place of a byte in ranges: bytes above 127 come before all others. -/
def rank (c : Char) : Nat := if c.toNat < 128 then c.toNat + 128 else c.toNat - 128

/-- Whether a member of a set is a character. -/
def Member.has (c : Char) : Member → Bool
  | .between low high => rank low ≤ rank c && rank c ≤ rank high
  | .class name => classHas name c

/-- Whether a part of a pattern other than `*` stands for a character. -/
def Element.accepts (c : Char) : Element → Bool
  | .char d => c = d
  | .any | .anyText => true
  | .set inverted members => members.any (Member.has c) != inverted

/-- The class whose name, between colons and before a bracket, the glyphs start with, and what
follows the bracket. -/
def readClass? (glyphs : List Glyph) : Option (Raw × List Glyph) :=
  classNames.findSome? fun name =>
    let written := ':' :: name ++ [':', ']']
    if (glyphs.take written.length).map (fun g => (g.char, g.quoted)) =
        written.map (fun c => (c, false)) then
      some (name, glyphs.drop written.length)
    else none

/-- The members of a set up to the bracket that ends it, and what follows the bracket. A bracket
that comes first is a member. -/
def readMembers : (fuel : Nat) → (first : Bool) → List Glyph → Option (List Member × List Glyph)
  | 0, _, _ => none
  | _, _, [] => none
  | fuel + 1, first, g :: rest =>
    let member (m : Member) (rest : List Glyph) : Option (List Member × List Glyph) :=
      (readMembers fuel false rest).map fun (ms, rest) => (m :: ms, rest)
    let single : Option (List Member × List Glyph) :=
      match rest with
      | ⟨'-', false⟩ :: high :: rest' =>
        if high.char = ']' ∧ ¬high.quoted then member (.between g.char g.char) rest
        else member (.between g.char high.char) rest'
      | _ => member (.between g.char g.char) rest
    if g.quoted then single
    else if g.char = ']' ∧ ¬first then some ([], rest)
    else if g.char = '[' then
      match readClass? rest with
      | some (name, rest) => member (.class name) rest
      | none => single
    else single

/-- Glyphs in which no backslash quotes what follows it: what it quotes is quoted itself. -/
def unescape : List Glyph → List Glyph
  | [] => []
  | g :: rest =>
    if g = ⟨'\\', false⟩ then
      match rest with
      | [] => [⟨'\\', true⟩]
      | next :: rest =>
        if next.quoted then ⟨'\\', true⟩ :: next :: unescape rest
        else { next with quoted := true } :: unescape rest
    else g :: unescape rest

/-- The pattern that glyphs without backslashes that quote write. -/
def ofGlyphs : (fuel : Nat) → List Glyph → List Element
  | 0, _ => []
  | _, [] => []
  | fuel + 1, g :: rest =>
    if g.quoted then .char g.char :: ofGlyphs fuel rest
    else
      match g.char with
      | '*' => .anyText :: ofGlyphs fuel rest
      | '?' => .any :: ofGlyphs fuel rest
      | '[' =>
        let (inverted, body) :=
          match rest with
          | ⟨'!', false⟩ :: body => (true, body)
          | body => (false, body)
        match readMembers (body.length + 1) true body with
        | some (members, rest) => .set inverted members :: ofGlyphs fuel rest
        | none => .char '[' :: ofGlyphs fuel rest
      | c => .char c :: ofGlyphs fuel rest

/-- The pattern that a word writes. -/
def ofWord (glyphs : List Glyph) : List Element :=
  ofGlyphs (glyphs.length + 1) (unescape glyphs)

/-! ## Matching

A text is read once, from its start. Each place in the pattern has a mark that says whether the
elements in front of the place stand for the text read so far. -/

/-- How far a text has been matched. -/
structure Progress where
  /-- The mark of the place in front of all elements. -/
  atStart : Bool
  /-- The marks of the places after each element. -/
  marks : List Bool

namespace Progress

/-- The marks of the places that nothing but `*` separates from a marked place. -/
def reachable : (mark : Bool) → List Element → List Bool
  | _, [] => []
  | mark, .anyText :: p => mark :: reachable mark p
  | _, _ :: p => false :: reachable false p

/-- The progress before anything is read. -/
def start (p : List Element) : Progress := { atStart := true, marks := reachable true p }

/-- The marks after one more character, given the old and the new mark of the place in front. -/
def advance (c : Char) : (old new : Bool) → List Element → List Bool → List Bool
  | old, new, e :: p, mark :: marks =>
    let reached :=
      match e with
      | .anyText => new || mark
      | e => old && e.accepts c
    reached :: advance c mark reached p marks
  | _, _, _, _ => []

/-- The progress after one more character. -/
def step (p : List Element) (progress : Progress) (c : Char) : Progress :=
  { atStart := false, marks := advance c progress.atStart false p progress.marks }

/-- Whether the whole pattern stands for the text read so far. -/
def isMatch (progress : Progress) : Bool := progress.marks.getLastD progress.atStart

end Progress

/-- Whether a pattern stands for a text. -/
def accepts (p : List Element) (s : Raw) : Bool :=
  (s.foldl (Progress.step p) (Progress.start p)).isMatch

/-- What follows the shortest or longest start of a text that a pattern stands for. -/
def restAfter? (longest : Bool) (p : List Element) (s : Raw) : Option Raw :=
  go (Progress.start p) none s
where
  /-- The same from some progress on, given what was found before. -/
  go (progress : Progress) (found : Option Raw) : Raw → Option Raw
    | [] => if progress.isMatch then some [] else found
    | c :: s =>
      if progress.isMatch ∧ ¬longest then some (c :: s)
      else go (progress.step p c) (if progress.isMatch then some (c :: s) else found) s

end Pattern

/-- Whether the pattern that glyphs write stands for a text. -/
def matchesPattern (pattern : List Glyph) (s : Raw) : Bool :=
  Pattern.accepts (Pattern.ofWord pattern) s

/-- Whether glyphs ask for a search among names. -/
def hasWildcard (glyphs : List Glyph) : Bool :=
  glyphs.any fun g => !g.quoted && (g.char = '*' || g.char = '?' || g.char = '[')

/-- The text without the shortest or longest part at its start that a pattern stands for. -/
def trimStart (longest : Bool) (pattern : List Glyph) (s : Raw) : Raw :=
  (Pattern.restAfter? longest (Pattern.ofWord pattern) s).getD s

/-- The text without the shortest or longest part at its end that a pattern stands for: a pattern
read backwards stands for the texts read backwards. -/
def trimEnd (longest : Bool) (pattern : List Glyph) (s : Raw) : Raw :=
  match Pattern.restAfter? longest (Pattern.ofWord pattern).reverse s.reverse with
  | some rest => rest.reverse
  | none => s

/-- Fields without the part that a pattern stands for at the start of the first field. All fields go
if the longest part is wanted and the pattern stands for the whole first field. -/
def trimFirst (longest : Bool) (pattern : List Glyph) : List Raw → List Raw
  | [] => []
  | first :: rest =>
    if longest ∧ matchesPattern pattern first then [[]] else trimStart longest pattern first :: rest

/-- Fields up to the part that a pattern stands for at the end of a field: the longest part of the
first field, or the shortest part of the last field that has one. -/
def trimLast (longest : Bool) (pattern : List Glyph) (fields : List Raw) : List Raw :=
  let elements := (Pattern.ofWord pattern).reverse
  let cut? (field : Raw) : Option Raw :=
    (Pattern.restAfter? longest elements field.reverse).map List.reverse
  let ways (fields : List Raw) : Option (List Raw) :=
    match fields.reverse with
    | [] => none
    | last :: before => (cut? last).map fun rest => before.reverse ++ [rest]
  let starts :=
    if longest then [fields.take 1]
    else (List.range fields.length).reverse.map fun n => fields.take (n + 1)
  (starts.findSome? ways).getD fields

end KnightLang.Shell
