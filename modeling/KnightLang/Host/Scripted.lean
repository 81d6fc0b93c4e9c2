/-
A host in memory: its input lines and the outputs of its commands are set up in advance, and what
is written to it is kept. No operation fails.
-/
import KnightLang.Host.Basic

namespace KnightLang

/-- A host whose input and commands are given in advance. -/
structure Scripted where
  /-- The lines still to be read. -/
  input : List String := []
  /-- Everything written so far. -/
  output : String := ""
  /-- The outputs of commands; any other command prints nothing. -/
  commands : List (String × String) := []

namespace Scripted

def readLine : Scripted → Option String × Scripted
  | ⟨[], output, commands⟩ => (none, ⟨[], output, commands⟩)
  | ⟨line :: input, output, commands⟩ => (some line, ⟨input, output, commands⟩)

def write (text : String) : Scripted → Scripted
  | ⟨input, output, commands⟩ => ⟨input, output ++ text, commands⟩

def shell (command : String) (s : Scripted) : String := (s.commands.lookup command).getD ""

instance : Host Scripted where
  readLine s := let (line, s) := s.readLine; (.ok line, s)
  write text s := (.ok (), s.write text)
  shell command s := (.ok (s.shell command), s)

end Scripted

end KnightLang
