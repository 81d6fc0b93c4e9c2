/-
Commands as a program starts them: text for a shell that has files and an input.
-/
import KnightLang.Host.FileSystem

namespace KnightLang

/-- What a command leaves behind. -/
structure CommandResult where
  printed : List UInt8
  errors : List UInt8
  status : Nat
  files : FileSystem
  /-- What is left of the input. -/
  input : List UInt8

/-- A shell: it runs a command with files and an input, or fails to start it with a message. -/
abbrev CommandShell :=
  (files : FileSystem) → (input : List UInt8) → (command : String) → Except String CommandResult

end KnightLang
