/-
Coercions on a machine. A truth value, a number or a text is wanted of any term: literals have
one, and any other term is evaluated, as often as it takes, until a literal is left. The left
operand of an operator is found in the same way, and decides what is wanted of the right one.
-/
import KnightLang.Machine.Basic
import KnightLang.Number.Arith
import KnightLang.Text.Part

namespace KnightLang

variable {μ ν α : Type}

/-- Evaluates a term until a literal is left, and reads that literal; `ev` evaluates once. -/
def coerce (read : Literal → α) (ev : Term ν → EvalM μ (Term ν)) : Nat → Term ν → EvalM μ α
  | _, .lit l => pure (read l)
  | 0, _ => .unfinished
  | n + 1, t => do
    let t ← ev t
    coerce read ev n t

/-- Applies an operator to a literal: a number takes a number, a text takes a text to append or a
number of repetitions, and nothing else takes a right operand. -/
def operateOn (ev : Term ν → EvalM μ (Term ν)) (steps : Nat) (right : Term ν) :
    Arith → Literal → EvalM μ Literal
  | op, .number a => do
    let b ← coerce Literal.toInt ev steps right
    .number <$> .ofFault (op.eval a b)
  | .add, .text s => do
    let r ← coerce Literal.toText ev steps right
    pure (.text (s ++ r))
  | .multiply, .text s => do
    let count ← coerce Literal.toInt ev steps right
    .text <$> .ofHalt (Text.repeated s count)
  | op, l => .fault (.unsupported op l.kind)

/-- Applies an operator to a term: evaluates the left operand until a literal is left. -/
def operate (ev : Term ν → EvalM μ (Term ν)) (steps : Nat) (op : Arith) (right : Term ν) :
    Nat → Term ν → EvalM μ Literal
  | _, .lit l => operateOn ev steps right op l
  | 0, _ => .unfinished
  | n + 1, left => do
    let left ← ev left
    operate ev steps op right n left

/-- Evaluates `body` as long as `cond` is true. -/
def repeatWhile (ev : Term ν → EvalM μ (Term ν)) (steps : Nat) (cond body : Term ν) :
    Nat → EvalM μ Unit
  | 0 => .unfinished
  | n + 1 => do
    if ← coerce Literal.truthy ev steps cond then
      let _ ← ev body
      repeatWhile ev steps cond body n

end KnightLang
