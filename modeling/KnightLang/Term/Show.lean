/-
The two written forms of a term. `dump` shows its structure: the kind of each node with its
content or arguments, texts verbatim and builtins without their tag. `display` is the text of a
literal, and the structure of any other term.
-/
import KnightLang.Term.Basic

namespace KnightLang

/-- The structure of a literal. -/
def Literal.dump : Literal → String
  | number n => "Number(" ++ n.toInt.repr ++ ")"
  | text s => "String(" ++ s ++ ")"
  | bool b => "Boolean(" ++ boolText b ++ ")"
  | null => "Null()"

namespace Term

variable {ν : Type} (nameOf : ν → String)

/-- The structure of a term, each variable shown by its name. -/
def dump : Term ν → String
  | lit l => l.dump
  | var x => "Identifier(" ++ nameOf x ++ ")"
  | nullary _ => "Function()"
  | unary _ a => "Function(" ++ a.dump ++ ")"
  | binary _ a b => "Function(" ++ a.dump ++ ", " ++ b.dump ++ ")"
  | ternary _ a b c => "Function(" ++ a.dump ++ ", " ++ b.dump ++ ", " ++ c.dump ++ ")"
  | quaternary _ a b c d =>
    "Function(" ++ a.dump ++ ", " ++ b.dump ++ ", " ++ c.dump ++ ", " ++ d.dump ++ ")"

/-- The text of a literal, the structure of any other term. -/
def display : Term ν → String
  | lit l => l.toText
  | t => t.dump nameOf

end Term

end KnightLang
