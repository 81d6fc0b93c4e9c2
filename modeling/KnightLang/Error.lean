/-
The ways in which evaluation ends without a value: an error of a source or of the running program,
an exit that the program asks for, or a text too large for any memory. Each error has a wording
and belongs to a phase.
-/
import KnightLang.Source.Error
import KnightLang.Term.Basic

namespace KnightLang

/-- What goes wrong in a running program. -/
inductive Fault
  /-- A variable without a value is evaluated. -/
  | unbound (name : String)
  | divisionByZero
  | moduloByZero
  /-- A text is repeated less than zero times. -/
  | negativeRepeat (count : Int64)
  /-- The target of an assignment is no variable. -/
  | invalidTarget (kind : Kind)
  /-- The operator is not defined for a left operand of this kind. -/
  | unsupported (op : Arith) (kind : Kind)
  /-- Two values have no order. -/
  | incomparable (left right : Kind)
  /-- A range of characters does not lie within a text of the given length. -/
  | outOfRange (start stop : Int64) (length : Nat)
  /-- The host cannot read, write or run a command. -/
  | host (message : String)
deriving DecidableEq

/-- The wording of a fault. -/
def Fault.message : Fault → String
  | unbound name => "unknown identifier '" ++ name ++ "'"
  | divisionByZero => "cannot divide by zero"
  | moduloByZero => "cannot modulo by zero"
  | negativeRepeat count =>
    "cannot repeat by a negative amount '" ++ count.toInt.repr ++ "'"
  | invalidTarget kind => "cannot assign to non-identifier (" ++ kind.label ++ ")"
  | unsupported op kind =>
    "unsupported operation '" ++ String.singleton op.symbol ++ "' for " ++ kind.label
  | incomparable left right => "cannot compare " ++ left.label ++ " with " ++ right.label
  | outOfRange start stop length =>
    "range " ++ start.toInt.repr ++ ".." ++ stop.toInt.repr ++
      " out of bounds for text of length " ++ length.repr
  | host message => "i/o failure: " ++ message

/-- An error of a source, or of a running program. -/
inductive Error
  | source (e : SourceError)
  | fault (f : Fault)
deriving DecidableEq

/-- The part of the work in which an error arises. -/
inductive Phase
  | parse
  | runtime
deriving DecidableEq, Repr

namespace Error

def message : Error → String
  | source e => e.message
  | fault f => f.message

/-- Only errors of a source have a position. -/
def position? : Error → Option Position
  | source e => some e.position
  | fault _ => none

def phase : Error → Phase
  | source _ => .parse
  | fault _ => .runtime

end Error

/-- An end of evaluation that leaves no value. -/
inductive Halt
  | error (e : Error)
  /-- The program asks to end with this code. -/
  | exit (code : Int32)
  /-- A text would be larger than any memory. -/
  | capacity
deriving DecidableEq

/-- The wording of a halt. -/
def Halt.message : Halt → String
  | error e => e.message
  | exit code => "exit with status " ++ code.toInt.repr
  | capacity => "capacity overflow"

end KnightLang
