/-
Parts and repetitions of text. Positions and lengths count characters. A range is given by its
start and length, both numbers of the language: `slice` clips a range to the text, `splice` wants
it within the text, and neither takes a negative start or length.
-/
import KnightLang.Error
import KnightLang.Number.Range

namespace KnightLang.Text

/-- The fault of a range that does not lie within a text. -/
def rangeFault (s : String) (start length : Int64) : Fault :=
  .outOfRange start (Number.saturate (start.toInt + length.toInt)) s.length

/-- The part of a text in a range, as far as the text goes. -/
def slice (s : String) (start length : Int64) : Except Fault String :=
  if start < 0 ∨ length < 0 then .error (rangeFault s start length)
  else .ok ((s.drop start.toInt.toNat).copy.take length.toInt.toNat).copy

/-- The text with the part in a range replaced. -/
def splice (s : String) (start length : Int64) (replacement : String) : Except Fault String :=
  if start < 0 ∨ length < 0 ∨ s.length < start.toInt + length.toInt then
    .error (rangeFault s start length)
  else
    .ok ((s.take start.toInt.toNat).copy ++ replacement ++
      (s.drop (start.toInt + length.toInt).toNat).copy)

/-- The text `count` times over: a negative count is a fault, and a result whose bytes no number
counts exceeds any memory. -/
def repeated (s : String) (count : Int64) : Except Halt String :=
  if count < 0 then .error (.error (.fault (.negativeRepeat count)))
  else if s.isEmpty then .ok ""
  else if Int64.maxValue.toInt < s.utf8ByteSize * count.toInt then .error .capacity
  else .ok (count.toInt.toNat.repeat (· ++ s) "")

/-- The text without its last character, if that is the given one. -/
def dropLast? (c : Char) (s : String) : Option String :=
  if s.back? = some c then some (s.dropEnd 1).copy else none

end KnightLang.Text
