/-
What can be wrong with a source, and how it is reported: each flaw has a wording, and a source
error names the flaw together with its position.
-/
import KnightLang.Source.Position

namespace KnightLang

/-- A reason why a source does not start with a complete expression. -/
inductive Flaw
  /-- The source ends before its first token. -/
  | noExpression
  /-- No token starts with this character. -/
  | unknownCharacter (c : Char)
  /-- The quote that opens a text is not closed. -/
  | unclosedText
  /-- A run of digits denotes a number out of range. -/
  | numberTooLarge (digits : String)
  /-- The source ends where the call of `tag` needs its argument number `index`. -/
  | missingArgument (tag : Char) (index : Nat)
deriving DecidableEq, Repr

/-- The wording of a flaw. -/
def Flaw.message : Flaw → String
  | noExpression => "nothing to parse"
  | unknownCharacter c => "unknown token start '" ++ String.singleton c ++ "'"
  | unclosedText => "unterminated string"
  | numberTooLarge digits => "number literal too large: " ++ digits
  | missingArgument tag index =>
    "unable to parse argument " ++ index.repr ++ " for function '" ++ String.singleton tag ++ "'"

/-- A flaw and where it is. -/
structure SourceError where
  flaw : Flaw
  position : Position
deriving DecidableEq, Repr

/-- The wording of a source error: the flaw, then its line and column. -/
def SourceError.message (e : SourceError) : String :=
  e.flaw.message ++ " (line " ++ e.position.line.toNat.repr ++ ", column " ++
    e.position.column.toNat.repr ++ ")"

end KnightLang
