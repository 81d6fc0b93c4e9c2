/-
Positions in a source: a byte offset into its UTF-8 form with the line and column that an editor
shows. Lines end at a newline, columns count characters, and both count from one in 32 bits.
-/
namespace KnightLang

/-- A place in a source, just after some of its characters. -/
structure Position where
  /-- The bytes before the place. -/
  offset : Nat
  line : UInt32
  column : UInt32
deriving DecidableEq, Repr

namespace Position

/-- The characters since the last newline. -/
def currentLine (before : List Char) : List Char :=
  (before.reverse.takeWhile (· != '\n')).reverse

/-- The place after the given characters of a source. -/
def locate (before : List Char) : Position where
  offset := (String.ofList before).utf8ByteSize
  line := UInt32.ofNat (before.count '\n') + 1
  column := UInt32.ofNat (currentLine before).length + 1

end Position

end KnightLang
