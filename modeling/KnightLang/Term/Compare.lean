/-
Equality and order of values. Both are strict: nothing is coerced or evaluated, so values of
different kinds are not equal and have no order, and code is equal to nothing.
-/
import KnightLang.Error
import KnightLang.Text.Order

namespace KnightLang.Term

variable {ν : Type}

/-- Whether two terms are the same literal. -/
def same : Term ν → Term ν → Bool
  | lit a, lit b => a == b
  | _, _ => false

/-- The order of two numbers, two texts or two truth values. -/
def compare : Term ν → Term ν → Except Fault Ordering
  | lit (.number a), lit (.number b) => .ok (Ord.compare a b)
  | lit (.text a), lit (.text b) => .ok (Text.byteOrder a b)
  | lit (.bool a), lit (.bool b) => .ok (Ord.compare a b)
  | a, b => .error (.incomparable a.kind b.kind)

end KnightLang.Term
