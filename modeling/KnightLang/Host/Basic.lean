/-
The outside world of a program: a source of lines, a sink of text and a shell. Each operation may
fail with a message.
-/
namespace KnightLang

/-- The operations of an outside world with states `σ`. -/
class Host (σ : Type) where
  /-- The next line of the input without its end, or nothing at the end of the input. -/
  readLine : σ → Except String (Option String) × σ
  /-- Writes a text as it is. -/
  write : String → σ → Except String Unit × σ
  /-- Runs a command line, and gives what it prints. -/
  shell : String → σ → Except String String × σ

end KnightLang
