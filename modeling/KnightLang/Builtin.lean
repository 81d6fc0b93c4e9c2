/-
The builtins of the language, grouped by the number of arguments that each takes. A builtin is
invoked by its tag, a single character; tags are distinct, so the table read backwards
(`ofTag?`) is the inverse of `tag`.
-/
namespace KnightLang

/-- The arithmetic operators. -/
inductive Arith
  | add
  | subtract
  | multiply
  | divide
  | modulo
  | power
deriving DecidableEq, Repr

/-- The character that an operator is written and reported by. -/
def Arith.symbol : Arith → Char
  | add => '+'
  | subtract => '-'
  | multiply => '*'
  | divide => '/'
  | modulo => '%'
  | power => '^'

/-- The builtins without arguments. -/
inductive Nullary
  /-- Reads a line. -/
  | prompt
  /-- Draws a random number. -/
  | random
deriving DecidableEq, Repr

/-- The builtins of one argument. -/
inductive Unary
  /-- Runs text as a program. -/
  | eval
  /-- Keeps its argument unevaluated. -/
  | block
  /-- Evaluates its argument and then the result. -/
  | call
  /-- Runs a shell command and returns what it prints. -/
  | shell
  /-- Ends the whole program with an exit code. -/
  | quit
  /-- Negates a truth value. -/
  | not
  /-- Counts the characters of a text. -/
  | length
  /-- Writes the structure of a value on a line of its own. -/
  | dump
  /-- Writes a text. -/
  | output
deriving DecidableEq, Repr

/-- The builtins of two arguments. -/
inductive Binary
  /-- Applies an arithmetic operator. -/
  | arith (op : Arith)
  /-- Tests two values for equality. -/
  | equal
  /-- Tests whether the first value is the lesser. -/
  | less
  /-- Tests whether the first value is the greater. -/
  | greater
  /-- Evaluates the second argument only if the first is true. -/
  | and
  /-- Evaluates the second argument only if the first is false. -/
  | or
  /-- Evaluates both arguments in order. -/
  | seq
  /-- Binds a variable. -/
  | assign
  /-- Evaluates the second argument as long as the first is true. -/
  | loop
deriving DecidableEq, Repr

/-- The builtins of three arguments. -/
inductive Ternary
  /-- Chooses between its second and third argument. -/
  | branch
  /-- Takes a part of a text. -/
  | slice
deriving DecidableEq, Repr

/-- The builtins of four arguments. -/
inductive Quaternary
  /-- Replaces a part of a text. -/
  | splice
deriving DecidableEq, Repr

/-- A builtin of any number of arguments. -/
inductive Builtin
  | nullary (f : Nullary)
  | unary (f : Unary)
  | binary (f : Binary)
  | ternary (f : Ternary)
  | quaternary (f : Quaternary)
deriving DecidableEq, Repr

namespace Builtin

/-- The number of arguments a builtin takes. -/
def arity : Builtin → Nat
  | nullary _ => 0
  | unary _ => 1
  | binary _ => 2
  | ternary _ => 3
  | quaternary _ => 4

/-- The character that invokes a builtin. -/
def tag : Builtin → Char
  | nullary .prompt => 'P'
  | nullary .random => 'R'
  | unary .eval => 'E'
  | unary .block => 'B'
  | unary .call => 'C'
  | unary .shell => '\x60'
  | unary .quit => 'Q'
  | unary .not => '!'
  | unary .length => 'L'
  | unary .dump => 'D'
  | unary .output => 'O'
  | binary (.arith op) => op.symbol
  | binary .equal => '?'
  | binary .less => '<'
  | binary .greater => '>'
  | binary .and => '&'
  | binary .or => '|'
  | binary .seq => ';'
  | binary .assign => '='
  | binary .loop => 'W'
  | ternary .branch => 'I'
  | ternary .slice => 'G'
  | quaternary .splice => 'S'

/-- Every builtin. -/
def all : List Builtin :=
  [nullary .prompt, nullary .random,
    unary .eval, unary .block, unary .call, unary .shell, unary .quit, unary .not, unary .length,
    unary .dump, unary .output,
    binary (.arith .add), binary (.arith .subtract), binary (.arith .multiply),
    binary (.arith .divide), binary (.arith .modulo), binary (.arith .power), binary .equal,
    binary .less, binary .greater, binary .and, binary .or, binary .seq, binary .assign,
    binary .loop,
    ternary .branch, ternary .slice,
    quaternary .splice]

/-- The builtin that a character invokes. -/
def ofTag? (c : Char) : Option Builtin := all.find? (·.tag == c)

theorem mem_all (b : Builtin) : b ∈ all := by
  rcases b with f | f | f | f | f
  · cases f <;> decide
  · cases f <;> decide
  · rcases f with op | _ | _ | _ | _ | _ | _ | _ | _
    · cases op <;> decide
    all_goals decide
  · cases f <;> decide
  · cases f; decide

theorem ofTag?_tag (b : Builtin) : ofTag? b.tag = some b := by
  rcases b with f | f | f | f | f
  · cases f <;> decide
  · cases f <;> decide
  · rcases f with op | _ | _ | _ | _ | _ | _ | _ | _
    · cases op <;> decide
    all_goals decide
  · cases f <;> decide
  · cases f; decide

theorem ofTag?_eq_some_iff {c : Char} {b : Builtin} : ofTag? c = some b ↔ b.tag = c := by
  constructor
  · intro h
    simpa using List.find?_some h
  · rintro rfl
    exact ofTag?_tag b

end Builtin

end KnightLang
