/-
Filler: what a source may hold between tokens without a meaning. It is made of blanks,
punctuation and comments; a comment runs from `#` to the end of its line.
-/
import KnightLang.Text.Blank

namespace KnightLang.Source

/-- The characters that may group code for the eye. -/
def punctuation : List Char := ['(', ')', '\x7b', '\x7d', '[', ']', ':']

/-- Whether a character is filler on its own. -/
def isFiller (c : Char) : Bool := Text.isBlank c || punctuation.contains c

/-- The source after its leading filler, from inside a comment or from outside. -/
def skipFrom (inComment : Bool) : List Char → List Char
  | [] => []
  | c :: cs =>
    if inComment then skipFrom (c != '\n') cs
    else if c = '#' then skipFrom true cs
    else if isFiller c then skipFrom false cs
    else c :: cs

/-- The source after its leading filler. -/
def skipFiller (cs : List Char) : List Char := skipFrom false cs

theorem skipFrom_isSuffix (inComment : Bool) (cs : List Char) : skipFrom inComment cs <:+ cs := by
  induction cs generalizing inComment with
  | nil => exact List.suffix_refl _
  | cons c cs ih =>
    unfold skipFrom
    have step (b : Bool) : skipFrom b cs <:+ c :: cs := (ih b).trans (List.suffix_cons c cs)
    split
    · exact step _
    · split
      · exact step _
      · split
        · exact step _
        · exact List.suffix_refl _

theorem skipFiller_isSuffix (cs : List Char) : skipFiller cs <:+ cs := skipFrom_isSuffix false cs

end KnightLang.Source
