/-
The arithmetic of numbers. Sums, differences and products wrap; quotients are truncated toward
zero and remainders take the sign of the dividend; division by zero is a fault.
-/
import KnightLang.Error
import KnightLang.Number.Power

namespace KnightLang

/-- The result of an operator on two numbers. -/
def Arith.eval (op : Arith) (a b : Int64) : Except Fault Int64 :=
  match op with
  | add => .ok (a + b)
  | subtract => .ok (a - b)
  | multiply => .ok (a * b)
  | divide => if b = 0 then .error .divisionByZero else .ok (a / b)
  | modulo => if b = 0 then .error .moduloByZero else .ok (a % b)
  | power => .ok (Number.power a b)

end KnightLang
