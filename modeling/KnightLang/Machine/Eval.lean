/-
Evaluation. A literal is its own value, a variable has the value last assigned to it, which is
not evaluated any further, and a call does what its builtin says. Builtins receive their arguments
unevaluated, so each of them decides what is evaluated, in which order and how often.

One unit of fuel is one level of evaluation: `step` gives the value of a term by means of an
evaluation `ev` of other terms, and `eval` closes the circle. More fuel never changes an outcome
that is there.
-/
import KnightLang.Machine.Coercion
import KnightLang.Term.Compare
import KnightLang.Term.Show

namespace KnightLang.Term

variable {β σ ν : Type} [Bindings β ν] [Host σ]

/-- The outcome of a builtin without arguments. -/
def stepNullary : Nullary → EvalM (Machine β σ) (Term ν)
  | .prompt => do
    let line ← Machine.readLine
    pure (lit (.text (line.getD "")))
  | .random => do
    let n ← Machine.draw
    pure (lit (.number n))

/-- Writes a text and the end of the line, which a backslash at the end of the text stands in
for. -/
def writeLine (text : String) : EvalM (Machine β σ) Unit :=
  match Text.dropLast? '\\' text with
  | some line => Machine.write line
  | none => do
    Machine.write text
    Machine.write "\n"

section
variable (ev : Term ν → EvalM (Machine β σ) (Term ν)) (n : Nat)

/-- The outcome of a builtin of one argument. -/
def stepUnary : Unary → Term ν → EvalM (Machine β σ) (Term ν)
  | .eval, a => do
    let source ← coerce Literal.toText ev n a
    let program ← Machine.load source
    ev program
  | .block, a => pure a
  | .call, a => do
    let code ← ev a
    ev code
  | .shell, a => do
    let command ← coerce Literal.toText ev n a
    let printed ← Machine.shell command
    pure (lit (.text printed))
  | .quit, a => do
    let code ← coerce Literal.toInt ev n a
    .halt (.exit code.toInt32)
  | .not, a => do
    let b ← coerce Literal.truthy ev n a
    pure (lit (.bool !b))
  | .length, a => do
    let s ← coerce Literal.toText ev n a
    pure (lit (.number (Int64.ofNat s.length)))
  | .dump, a => do
    let value ← ev a
    Machine.write (value.dump (Bindings.nameOf β))
    Machine.write "\n"
    pure value
  | .output, a => do
    let s ← coerce Literal.toText ev n a
    writeLine s
    pure (lit .null)

/-- The outcome of a builtin of two arguments. -/
def stepBinary : Binary → Term ν → Term ν → EvalM (Machine β σ) (Term ν)
  | .arith op, a, b => do
    let left ← ev a
    let right ← ev b
    lit <$> operate ev n op right n left
  | .equal, a, b => do
    let left ← ev a
    let right ← ev b
    pure (lit (.bool (left.same right)))
  | .less, a, b => do
    let left ← ev a
    let right ← ev b
    let order ← .ofFault (left.compare right)
    pure (lit (.bool (order == .lt)))
  | .greater, a, b => do
    let left ← ev a
    let right ← ev b
    let order ← .ofFault (left.compare right)
    pure (lit (.bool (order == .gt)))
  | .and, a, b => do
    let left ← ev a
    if ← coerce Literal.truthy ev n left then ev b else pure left
  | .or, a, b => do
    let left ← ev a
    if ← coerce Literal.truthy ev n left then pure left else ev b
  | .seq, a, b => do
    let _ ← ev a
    ev b
  | .assign, var x, b => do
    let value ← ev b
    Machine.assign x value
    pure value
  | .assign, a, _ => .fault (.invalidTarget a.kind)
  | .loop, a, b => do
    repeatWhile ev n a b n
    pure (lit .null)

/-- The outcome of a builtin of three arguments. -/
def stepTernary : Ternary → Term ν → Term ν → Term ν → EvalM (Machine β σ) (Term ν)
  | .branch, a, b, c => do
    if ← coerce Literal.truthy ev n a then ev b else ev c
  | .slice, a, b, c => do
    let s ← coerce Literal.toText ev n a
    let start ← coerce Literal.toInt ev n b
    let length ← coerce Literal.toInt ev n c
    let part ← .ofFault (Text.slice s start length)
    pure (lit (.text part))

/-- The outcome of a builtin of four arguments. -/
def stepQuaternary :
    Quaternary → Term ν → Term ν → Term ν → Term ν → EvalM (Machine β σ) (Term ν)
  | .splice, a, b, c, d => do
    let s ← coerce Literal.toText ev n a
    let start ← coerce Literal.toInt ev n b
    let length ← coerce Literal.toInt ev n c
    let replacement ← coerce Literal.toText ev n d
    let spliced ← .ofFault (Text.splice s start length replacement)
    pure (lit (.text spliced))

/-- The outcome of a term, given an evaluation of other terms. -/
def step : Term ν → EvalM (Machine β σ) (Term ν)
  | lit l => pure (lit l)
  | var x => Machine.lookup x
  | nullary f => stepNullary f
  | unary f a => stepUnary ev n f a
  | binary f a b => stepBinary ev n f a b
  | ternary f a b c => stepTernary ev n f a b c
  | quaternary f a b c d => stepQuaternary ev n f a b c d

end

/-- The outcome of a term, with at most `fuel` levels of evaluation, rounds of a loop and steps of
a coercion. -/
def eval : (fuel : Nat) → Term ν → EvalM (Machine β σ) (Term ν)
  | 0, _ => .unfinished
  | n + 1, t => step (eval n) n t

/-- More fuel than any run uses up in a lifetime. -/
def ampleFuel : Nat := 0x4000000000000000

/-- Runs the first expression of a source. -/
def runSource (fuel : Nat) (source : String) : EvalM (Machine β σ) (Term ν) := do
  let program ← Machine.load source
  program.eval fuel

end KnightLang.Term
