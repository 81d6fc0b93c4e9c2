/-
A host made of a byte stream, a screen, files and a shell. Lines of the input are UTF-8 and end at
a newline, which a carriage return may precede; the last line may lack its end. The stream is read
in blocks, and commands read what is left after the blocks taken so far. What commands print is
read as UTF-8 as far as it is.
-/
import KnightLang.Host.Basic
import KnightLang.Host.Command
import KnightLang.Text.Part
import KnightLang.Text.Utf8

namespace KnightLang

/-- A byte stream, a screen, files, and a shell for commands. -/
structure Console where
  /-- The bytes still to be read. -/
  input : List UInt8
  /-- How many of them are taken from the stream already. -/
  taken : Nat := 0
  /-- Everything written so far. -/
  output : String := ""
  /-- Everything that commands have shown as errors so far. -/
  errors : List UInt8 := []
  files : FileSystem := {}
  shell : CommandShell

namespace Console

/-- The line that bytes stand for, and the failure of any others. -/
def decodeLine (bytes : List UInt8) : Except String String :=
  match Text.decode? bytes with
  | some line => .ok line
  | none => .error "stream did not contain valid UTF-8"

/-- The text without a carriage return at its end. -/
def trimReturn (line : String) : String := (Text.dropLast? '\x0d' line).getD line

/-- The number of bytes in a block of the stream. -/
def blockSize : Nat := 8192

/-- How many bytes are taken from the stream after `used` bytes are used up, where `taken` were
taken before: whole blocks until they suffice. -/
def takenAfter (taken used : Nat) : Nat :=
  if used ≤ taken then taken - used
  else (blockSize - (used - taken) % blockSize) % blockSize

/-- Reads a line. -/
def readLine (c : Console) : Except String (Option String) × Console :=
  match c.input with
  | [] => (.ok none, c)
  | b :: bs =>
    let bytes := (b :: bs).takeWhile (· != 10)
    let line := decodeLine bytes
    match (b :: bs).dropWhile (· != 10) with
    | [] => (line.map some, { c with input := [], taken := 0 })
    | _ :: rest =>
      (line.map (some ∘ trimReturn),
        { c with input := rest, taken := takenAfter c.taken (bytes.length + 1) })

/-- Writes a text. -/
def write (text : String) (c : Console) : Console := { c with output := c.output ++ text }

/-- Runs a command. -/
def runShell (command : String) (c : Console) : Except String String × Console :=
  match c.shell c.files (c.input.drop c.taken) command with
  | .error message => (.error message, c)
  | .ok result =>
    (.ok (Text.decodeLossy result.printed),
      { c with
        input := c.input.take c.taken ++ result.input
        errors := c.errors ++ result.errors
        files := result.files })

instance : Host Console where
  readLine := readLine
  write text c := (.ok (), c.write text)
  shell := runShell

end Console

end KnightLang
