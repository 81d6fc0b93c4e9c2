/-
The program: reads its arguments, files and input, and shows the report of the run.
-/
import KnightLang.CommandLine.Basic

namespace KnightLang

open CommandLine

/-- Reads the file at a path. -/
def readFile (path : String) : IO (Except FileError (List UInt8)) := do
  try
    let bytes ← IO.FS.readBinFile path
    pure (.ok bytes.data.toList)
  catch
    | .noFileOrDirectory .. => pure (.error .missing)
    | .inappropriateType .. => pure (.error .isDirectory)
    | e => pure (.error (.other (toString e)))

/-- Everything that a stream still holds. -/
partial def readAll (stream : IO.FS.Stream) (before : ByteArray) : IO ByteArray := do
  let bytes ← stream.read 65536
  if bytes.isEmpty then pure before else readAll stream (before ++ bytes)

/-- Runs a program and shows its report. -/
def runProgram (program : Program) : IO UInt32 := do
  let contents ← match program with
    | .text _ => pure (.error .missing)
    | .file path => readFile path
  let input ← readAll (← IO.getStdin) .empty
  let seed ← IO.monoNanosNow
  let draws : Draws := .seeded (UInt64.ofNat seed)
  match program.run? Term.ampleFuel draws input.data.toList {} fun _ => contents with
  | some report =>
    IO.print report.stdout
    IO.eprint report.stderr
    pure report.status.toUInt32
  | none => pure 1

end KnightLang

open KnightLang in
def main (args : List String) : IO UInt32 := do
  match CommandLine.Program.ofArgs? args with
  | some program => runProgram program
  | none =>
    IO.eprintln "usage: knight (-e PROGRAM | -f FILE)"
    pure 2
