/-
Reading: the first complete expression of a source as a term. The tokens of an expression stand
in prefix order, so calls whose arguments are not all read yet form a stack. A finished term is
the next argument of the innermost open call, and closes that call if it was the last one.

The names of variables are reported in the order of their tokens, also when reading fails later
on. What follows the first expression is not looked at.
-/
import KnightLang.Source.Token

namespace KnightLang

namespace Source

/-! ## Open calls -/

/-- A call that still lacks arguments. -/
structure Frame where
  builtin : Builtin
  /-- The arguments read so far, in order. -/
  args : List (Term String)

/-- The state of reading after a token. -/
inductive Progress
  /-- The expression is complete. -/
  | complete (term : Term String)
  /-- Calls are open, the innermost first. -/
  | pending (frames : List Frame)

/-- Hands a finished term to the innermost open call, and closes every call that this
completes. -/
def supply (term : Term String) : List Frame → Progress
  | [] => .complete term
  | frame :: outer =>
    match frame.builtin.call? (frame.args ++ [term]) with
    | some call => supply call outer
    | none => .pending (⟨frame.builtin, frame.args ++ [term]⟩ :: outer)

/-- Reads one more token: a builtin opens a call, unless it takes no arguments. -/
def accept (frames : List Frame) : Token → Progress
  | .literal l => supply (.lit l) frames
  | .name x => supply (.var x) frames
  | .builtin f =>
    match f.call? [] with
    | some call => supply call frames
    | none => .pending (⟨f, []⟩ :: frames)

/-! ## From tokens to a term -/

/-- How reading a source ends. -/
inductive Ending
  /-- With an expression, and the source after it. -/
  | complete (term : Term String) (rest : List Char)
  /-- At something that is no token, and the source from there on. -/
  | invalid (flaw : Flaw) (start : List Char)
  /-- At the end of the source, with calls open. -/
  | incomplete (frames : List Frame)

/-- The end of a reading, and the names read up to it, the last one first. -/
structure Reading where
  ending : Ending
  names : List String

/-- Reads on from a source with calls open. -/
def readFrom (frames : List Frame) (names : List String) (cs : List Char) : Reading :=
  match _h : nextLexeme cs with
  | .finished => ⟨.incomplete frames, names⟩
  | .invalid flaw start => ⟨.invalid flaw start, names⟩
  | .token token rest =>
    match accept frames token with
    | .complete term => ⟨.complete term rest, token.name?.toList ++ names⟩
    | .pending frames => readFrom frames (token.name?.toList ++ names) rest
termination_by cs.length
decreasing_by exact length_lt_of_nextLexeme ‹_›

/-! ## The outcome of reading -/

/-- What is wrong with a source that ends with calls open: the innermost one lacks its next
argument. -/
def incompleteFlaw : List Frame → Flaw
  | [] => .noExpression
  | frame :: _ => .missingArgument frame.builtin.tag frame.args.length

end Source

/-- The first expression of a source, or what is wrong with it, and the names in it. -/
structure Parsed where
  result : Except SourceError (Term String)
  /-- The names of variables in the order of their tokens. -/
  names : List String

/-- Reads the first expression of a source. -/
def parse (source : String) : Parsed :=
  let cs := source.toList
  let reading := Source.readFrom [] [] cs
  let result := match reading.ending with
    | .complete term _ => .ok term
    | .invalid flaw start =>
      .error ⟨flaw, .locate (cs.take (cs.length - start.length))⟩
    | .incomplete frames => .error ⟨Source.incompleteFlaw frames, .locate cs⟩
  ⟨result, reading.names.reverse⟩

end KnightLang
