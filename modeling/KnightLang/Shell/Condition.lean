/-
Conditions: tests of texts, numbers and files, with `!`, `-a`, `-o` and parentheses. An operator
counts as a text where it has no operands.
-/
import KnightLang.Text.RawNumeral

namespace KnightLang.Shell

open Text (Raw)

namespace Condition

/-- What a word of a condition may be. -/
inductive Sign
  | finish
  | operand
  | unary
  | binary
  | negation
  | conjunction
  | disjunction
  | opening
  | closing
deriving DecidableEq

def unaryOperators : List Raw :=
  ["-r", "-w", "-x", "-e", "-f", "-d", "-c", "-b", "-p", "-u", "-g", "-k", "-s", "-t", "-z", "-n",
    "-h", "-L", "-O", "-G", "-S"].map String.toList

def binaryOperators : List Raw :=
  ["=", "!=", "<", ">", "-eq", "-ne", "-ge", "-gt", "-le", "-lt", "-nt", "-ot", "-ef"].map
    String.toList

/-- The operator that a word is. -/
def operator? (s : Raw) : Option Sign :=
  if unaryOperators.contains s then some .unary
  else if binaryOperators.contains s then some .binary
  else
    match String.ofList s with
    | "!" => some .negation
    | "-a" => some .conjunction
    | "-o" => some .disjunction
    | "(" => some .opening
    | ")" => some .closing
    | _ => none

/-- What the first of some words is, given those after it. -/
def first : List Raw → Sign
  | [] => .finish
  | s :: rest =>
    match operator? s, rest with
    | some .unary, [] => .operand
    | some .unary, [_] => .unary
    | some .unary, next :: _ => if operator? next = some .binary then .operand else .unary
    | some .opening, [] => .operand
    | some sign, _ => sign
    | none, _ => .operand

/-- How far the words of a condition are read. -/
structure State where
  /-- The last word that was read. -/
  last : Option Raw := none
  rest : List Raw

/-- A computation that evaluates as it reads. -/
abbrev ConditionM := StateT State (Except Raw)

/-- Takes the next word. -/
def next? : ConditionM (Option Raw) := do
  match (← get).rest with
  | [] =>
    set { rest := [] : State }
    pure none
  | s :: rest =>
    set { last := some s, rest : State }
    pure (some s)

/-- The number that a word is. -/
def number (s : Raw) : ConditionM Int :=
  match Raw.signed? Raw.decimal? s with
  | some (n, rest) =>
    if rest.all Raw.isSpace ∧ Int64.minValue.toInt ≤ n ∧ n ≤ Int64.maxValue.toInt then pure n
    else throw ("Illegal number: ".toList ++ s)
  | none => throw ("Illegal number: ".toList ++ s)

/-- Whether a binary operator holds. Files that are compared count as the same if their names
are. -/
def binaryHolds (text a b : Raw) : ConditionM Bool := do
  match String.ofList text with
  | "=" => pure (a = b)
  | "!=" => pure (a ≠ b)
  | "<" => pure (Raw.before a b)
  | ">" => pure (Raw.before b a)
  | "-eq" => return (← number a) = (← number b)
  | "-ne" => return (← number a) ≠ (← number b)
  | "-ge" => return (← number a) ≥ (← number b)
  | "-gt" => return (← number a) > (← number b)
  | "-le" => return (← number a) ≤ (← number b)
  | "-lt" => return (← number a) < (← number b)
  | "-ef" => pure (a = b)
  | _ => pure false

/-- The forms of conditions, those that bind least first. -/
inductive Level
  | disjunction
  | conjunction
  | negation

/-- Evaluates the next condition of a form, given how files are tested and how the conditions in it
are evaluated. -/
def step (fileHolds : Char → Raw → Bool) (again : Level → ConditionM Bool) (level : Level) :
    ConditionM Bool := do
  match level with
  | .disjunction =>
    let a ← again .conjunction
    if first (← get).rest = .disjunction then
      let _ ← next?
      let b ← again .disjunction
      pure (a || b)
    else pure a
  | .conjunction =>
    let a ← again .negation
    if first (← get).rest = .conjunction then
      let _ ← next?
      let b ← again .conjunction
      pure (a && b)
    else pure a
  | .negation =>
    let sign := first (← get).rest
    match sign with
    | .negation =>
      let _ ← next?
      if (← get).rest.isEmpty then pure true else return !(← again .negation)
    | .finish =>
      let _ ← next?
      pure false
    | .opening =>
      let _ ← next?
      if first (← get).rest = .closing then
        let _ ← next?
        pure false
      else
        let value ← again .disjunction
        unless first (← get).rest = .closing do throw "closing paren expected".toList
        let _ ← next?
        pure value
    | .unary =>
      let operator := (← next?).getD []
      match ← next? with
      | none => throw (operator ++ ": argument expected".toList)
      | some s =>
        match operator with
        | ['-', 'z'] => pure s.isEmpty
        | ['-', 'n'] => pure !s.isEmpty
        | ['-', 't'] =>
          let _ ← number s
          pure false
        | [_, letter] => pure (fileHolds letter s)
        | _ => pure false
    | _ =>
      let a := (← next?).getD []
      if first (← get).rest = .binary then
        let operator := (← next?).getD []
        match ← next? with
        | none => throw (operator ++ ": argument expected".toList)
        | some b => binaryHolds operator a b
      else pure !a.isEmpty

/-- Evaluates the next condition of a form, with at most `fuel` levels of nesting. -/
def evaluate (fileHolds : Char → Raw → Bool) : (fuel : Nat) → Level → ConditionM Bool
  | 0, _ => pure false
  | fuel + 1, level => step fileHolds (evaluate fileHolds fuel) level

/-- Whether a binary operator stands between two words. -/
def binaryCondition? : List Raw → Option (Raw × Raw × Raw)
  | [a, operator, b] => if operator? operator = some .binary then some (a, operator, b) else none
  | _ => none

/-- The words inside parentheses around one or two words. -/
def inside : List Raw → List Raw
  | [['('], a, [')']] => [a]
  | [['('], a, b, [')']] => [a, b]
  | words => words

/-- Whether the condition that words write holds, or the message of its fault. -/
def holds (fileHolds : Char → Raw → Bool) (words : List Raw) : Except Raw Bool := do
  match binaryCondition? words with
  | some (a, operator, b) => (binaryHolds operator a b).run' { rest := [] }
  | none =>
    let words := inside words
    if words.isEmpty then pure false
    else
      let (value, state) ←
        (evaluate fileHolds (4 * words.length + 4) .disjunction).run { rest := words }
      match state with
      | { last := some s, rest := _ :: _ } =>
        let word := if s.isEmpty then [] else s ++ ": ".toList
        throw (word ++ "unexpected operator".toList)
      | _ => pure value

end Condition

end KnightLang.Shell
