/-
Arithmetic expressions over numbers of 64 bits: the operators of whole numbers, conditions that
evaluate one side only, and assignments. Arithmetic wraps; a shift takes its amount modulo 64.
-/
import KnightLang.Text.RawNumeral

namespace KnightLang.Shell

open Text (Raw)

/-- A token of an expression. -/
inductive ArithToken
  | number (n : Int64)
  | name (x : Raw)
  | operator (text : Raw)
deriving DecidableEq

/-- Why an expression has no value. -/
inductive ArithFault
  | expecting (what : String)
  | divisionByZero
  /-- The value of a variable is no number. -/
  | illegalNumber (value : Raw)
  /-- A quotient has no 64 bits. -/
  | overflow
deriving DecidableEq

namespace Arithmetic

/-- The operators, longer ones first. -/
def operators : List Raw :=
  ["<<=", ">>=", "==", "!=", "<=", ">=", "&&", "||", "<<", ">>", "+=", "-=", "*=", "/=", "%=", "&=",
    "|=", "^=", "+", "-", "*", "/", "%", "<", ">", "=", "!", "~", "&", "|", "^", "(", ")", "?",
    ":"].map String.toList

/-- The nearest number of 64 bits. -/
def nearest (n : Int) : Int64 :=
  Int64.ofInt (max Int64.minValue.toInt (min Int64.maxValue.toInt n))

/-- The tokens of an expression. A character that starts none is an operator of its own. -/
def tokens : (fuel : Nat) → Raw → List ArithToken
  | 0, _ => []
  | _, [] => []
  | fuel + 1, c :: s =>
    if c = ' ' ∨ c = '\t' ∨ c = '\n' then tokens fuel s
    else if Raw.isNameStart c then
      .name ((c :: s).takeWhile Raw.isNameChar) :: tokens fuel (s.dropWhile Raw.isNameChar)
    else
      match if Raw.isDigit c then Raw.natural? (c :: s) else none with
      | some (n, rest) => .number (nearest n) :: tokens fuel rest
      | none =>
        match operators.find? (·.isPrefixOf (c :: s)) with
        | some text => .operator text :: tokens fuel ((c :: s).drop text.length)
        | none => .operator [c] :: tokens fuel s

/-- The number that the value of a variable writes: blanks around it are left out, and no value
counts as zero. -/
def valueOf? (s : Raw) : Option Int64 :=
  match Raw.signed? Raw.natural? s with
  | some (n, rest) =>
    if Int64.minValue.toInt ≤ n ∧ n ≤ Int64.maxValue.toInt ∧ rest.all Raw.isSpace then
      some (Int64.ofInt n)
    else none
  | none => if s.all Raw.isSpace then some 0 else none

/-- What is left of an expression, and the variables that have new values, the last one first. -/
structure State where
  rest : List ArithToken
  assigned : List (Raw × Int64) := []

/-- A computation that evaluates as it reads. -/
abbrev ArithM := StateT State (Except ArithFault)

/-- Takes the next token if it is the given operator. -/
def take? (text : String) : ArithM Bool := do
  let state ← get
  match state.rest with
  | .operator t :: rest =>
    if t = text.toList then
      set { state with rest }
      pure true
    else pure false
  | _ => pure false

/-- The binary operators by precedence, those that bind least first. -/
def binaryLevels : List (List Raw) :=
  [["|"], ["^"], ["&"], ["==", "!="], ["<", ">", "<=", ">="], ["<<", ">>"], ["+", "-"],
    ["*", "/", "%"]].map (·.map String.toList)

/-- The precedence of a binary operator. -/
def precedence? (text : Raw) : Option Nat := binaryLevels.findIdx? (·.contains text)

/-- The number that stands for a truth value. -/
def ofBool (b : Bool) : Int64 := if b then 1 else 0

/-- The value of a binary operator. -/
def binaryValue (text : Raw) (a b : Int64) : Except ArithFault Int64 :=
  match String.ofList text with
  | "|" => .ok (a ||| b)
  | "^" => .ok (a ^^^ b)
  | "&" => .ok (a &&& b)
  | "==" => .ok (ofBool (a = b))
  | "!=" => .ok (ofBool (a ≠ b))
  | "<" => .ok (ofBool (a < b))
  | ">" => .ok (ofBool (b < a))
  | "<=" => .ok (ofBool (a ≤ b))
  | ">=" => .ok (ofBool (b ≤ a))
  | "<<" => .ok (a <<< b)
  | ">>" => .ok (a >>> b)
  | "+" => .ok (a + b)
  | "-" => .ok (a - b)
  | "*" => .ok (a * b)
  | "/" =>
    if b = 0 then .error .divisionByZero
    else if a = Int64.minValue ∧ b = -1 then .error .overflow
    else .ok (a / b)
  | _ =>
    if b = 0 then .error .divisionByZero
    else if a = Int64.minValue ∧ b = -1 then .error .overflow
    else .ok (a % b)

/-- The value of a variable, given the values that variables had before. -/
def valueOfName (lookup : Raw → Raw) (x : Raw) : ArithM Int64 := do
  match (← get).assigned.lookup x with
  | some n => pure n
  | none =>
    match valueOf? (lookup x) with
    | some n => pure n
    | none => throw (.illegalNumber (lookup x))

/-- The operator of an assignment: the binary operator that comes before the equals sign, if there
is one. -/
def assignment? (text : Raw) : Option Raw :=
  if text = ['='] then some []
  else
    match text.reverse with
    | '=' :: operator =>
      let operator := operator.reverse
      let arithmetic := ["+", "-", "*", "/", "%", "<<", ">>", "&", "|", "^"].map String.toList
      if arithmetic.contains operator then some operator else none
    | _ => none

/-- A form of expressions, those that bind least first. -/
inductive Level
  | assignment
  | condition
  | disjunction
  | conjunction
  /-- Binary operators from a precedence on. -/
  | binary (precedence : Nat)
  | primary

/-- Evaluates the next expression of a form, given a way to evaluate those in it. In a part that
does not count, nothing is looked up, computed or assigned. -/
def step (lookup : Raw → Raw) (again : Level → (counts : Bool) → ArithM Int64) (level : Level)
    (counts : Bool) : ArithM Int64 := do
  match level with
  | .assignment =>
    let state ← get
    match state.rest with
    | .name x :: .operator text :: rest =>
      match assignment? text with
      | some operator =>
        set { state with rest }
        let value ← again .assignment counts
        if counts then
          let value ← if operator.isEmpty then pure value
            else do binaryValue operator (← valueOfName lookup x) value
          modify fun state => { state with assigned := (x, value) :: state.assigned }
          pure value
        else pure value
      | none => again .condition counts
    | _ => again .condition counts
  | .condition =>
    let test ← again .disjunction counts
    if ← take? "?" then
      let yes ← again .assignment (counts && test ≠ 0)
      unless ← take? ":" do throw (.expecting "expecting ':'")
      let no ← again .condition (counts && test = 0)
      pure (if test ≠ 0 then yes else no)
    else pure test
  | .disjunction =>
    let a ← again .conjunction counts
    if ← take? "||" then
      let b ← again .disjunction (counts && a = 0)
      pure (ofBool (a ≠ 0 || b ≠ 0))
    else pure a
  | .conjunction =>
    let a ← again (.binary 0) counts
    if ← take? "&&" then
      let b ← again .conjunction (counts && a ≠ 0)
      pure (ofBool (a ≠ 0 && b ≠ 0))
    else pure a
  | .binary least =>
    let first ← again .primary counts
    climb (← get).rest.length least first
  | .primary =>
    let state ← get
    match state.rest with
    | .number n :: rest =>
      set { state with rest }
      pure n
    | .name x :: rest =>
      set { state with rest }
      if counts then valueOfName lookup x else pure 0
    | .operator text :: rest =>
      set { state with rest }
      match String.ofList text with
      | "(" =>
        let value ← again .assignment counts
        unless ← take? ")" do throw (.expecting "expecting ')'")
        pure value
      | "+" => again .primary counts
      | "-" => return -(← again .primary counts)
      | "!" => return ofBool ((← again .primary counts) = 0)
      | "~" => return ~~~(← again .primary counts)
      | _ => throw (.expecting "expecting primary")
    | [] => throw (.expecting "expecting primary")
where
  /-- Applies binary operators from a precedence on to a first operand. -/
  climb : (fuel : Nat) → (least : Nat) → Int64 → ArithM Int64
    | 0, _, a => pure a
    | fuel + 1, least, a => do
      let state ← get
      match state.rest with
      | .operator text :: rest =>
        match precedence? text with
        | some p =>
          if p < least then pure a
          else
            set { state with rest }
            let b ← again (.binary (p + 1)) counts
            let value ← if counts then binaryValue text a b else pure b
            climb fuel least value
        | none => pure a
      | _ => pure a

/-- Evaluates the next expression of a form, with at most `fuel` levels of nesting. -/
def evaluate (lookup : Raw → Raw) : (fuel : Nat) → Level → (counts : Bool) → ArithM Int64
  | 0, _, _ => throw (.expecting "expecting primary")
  | fuel + 1, level, counts => step lookup (evaluate lookup fuel) level counts

/-- The value of an expression, given the values of variables, and the variables that have new
values, the last one first. -/
def value (lookup : Raw → Raw) (expression : Raw) :
    Except ArithFault (Int64 × List (Raw × Int64)) := do
  let rest := tokens (expression.length + 1) expression
  let (n, state) ← (evaluate lookup (8 * rest.length + 8) .assignment true).run { rest }
  unless state.rest.isEmpty do throw (.expecting "expecting EOF")
  pure (n, state.assigned)

end Arithmetic

/-- The wording of a fault in an expression. -/
def ArithFault.message (expression : Raw) : ArithFault → Raw
  | expecting what => wording what
  | divisionByZero => wording "division by zero"
  | illegalNumber value => "Illegal number: ".toList ++ value
  | overflow => []
where
  /-- The wording around the reason. -/
  wording (reason : String) : Raw :=
    "arithmetic expression: ".toList ++ reason.toList ++ ": \x22".toList ++ expression ++ ['\x22']

end KnightLang.Shell
