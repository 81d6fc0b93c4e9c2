/-
The command line: `-e PROGRAM` runs the program text, `-f FILE` the program in a file. The program
sees the standard streams, files and a shell. It ends with status zero, with the code that it exits
with (a byte), or with status one and an error message; its value is not shown.
-/
import KnightLang.Host.Console
import KnightLang.Machine.Eval
import KnightLang.Shell.Run

namespace KnightLang.CommandLine

/-! ## Arguments -/

/-- The program that a command line names. -/
inductive Program
  | text (source : String)
  | file (path : String)
deriving DecidableEq

/-- The values given to the two options so far. -/
structure Options where
  text : Option String := none
  file : Option String := none

/-- Whether an argument is an option, and so not the value of one. -/
def isOption (arg : String) : Bool := arg.length > 1 && arg.startsWith "-"

/-- Gives an option its value, unless it has one. -/
def Options.add? (options : Options) (letter : Char) (value : String) : Option Options :=
  match letter, options with
  | 'e', { text := none, file } => some { text := some value, file }
  | 'f', { text, file := none } =>
    if value = "" then none else some { text, file := some value }
  | _, _ => none

/-- The options in a list of arguments, with their values joined to them or after them. -/
def Options.ofArgs? (options : Options) : List String → Option Options
  | [] => some options
  | arg :: args =>
    match arg.toList, args with
    | ['-', letter], value :: args =>
      if isOption value then none
      else
        match options.add? letter value with
        | some options => ofArgs? options args
        | none => none
    | '-' :: letter :: '=' :: value, args | '-' :: letter :: value, args =>
      if value.isEmpty then none
      else
        match options.add? letter (String.ofList value) with
        | some options => ofArgs? options args
        | none => none
    | _, _ => none

/-- The program that arguments name, if they name exactly one. -/
def Program.ofArgs? (args : List String) : Option Program :=
  match Options.ofArgs? {} args with
  | some { text := some source, file := none } => some (.text source)
  | some { text := none, file := some path } => some (.file path)
  | _ => none

/-- The source of a program, given a way to read files, or why there is none. -/
def Program.source (readFile : String → Except FileError (List UInt8)) :
    Program → Except String String
  | text source => .ok source
  | file path =>
    let contents := do
      let bytes ← (readFile path).mapError FileError.message
      Console.decodeLine bytes
    contents.mapError fun reason => "couldn't read file " ++ path ++ ": " ++ reason

/-! ## Running -/

/-- What a program leaves behind. -/
structure Report where
  status : UInt8
  stdout : String := ""
  stderr : String := ""
deriving DecidableEq

/-- The report of an error, after what was written before it. -/
def Report.error (message stdout stderr : String) : Report where
  status := 1
  stdout
  stderr := stderr ++ "Invalid program: " ++ message ++ "\n"

/-- What commands have shown as errors. -/
def shownErrors {β : Type} (m : Machine β Console) : String := Text.decodeLossy m.host.errors

/-- The report of a program's outcome, if the fuel lasted. -/
def Report.ofOutcome? {α β : Type} : Outcome (Machine β Console) α → Option Report
  | .value _ m => some { status := 0, stdout := m.host.output, stderr := shownErrors m }
  | .halted (.exit code) m =>
    some { status := code.toInt8.toUInt8, stdout := m.host.output, stderr := shownErrors m }
  | .halted (.error e) m => some (Report.error e.message m.host.output (shownErrors m))
  | .halted .capacity m =>
    some { status := 101, stdout := m.host.output,
           stderr := shownErrors m ++ Halt.capacity.message ++ "\n" }
  | .unfinished => none

/-- The report of a source run with the given input and files, if the fuel lasts. -/
def runSource? (fuel : Nat) (draws : Draws) (input : List UInt8) (files : FileSystem)
    (source : String) : Option Report :=
  let console : Console := { input, files, shell := Shell.shell }
  let machine : Machine Store Console := { bindings := ∅, host := console, draws }
  Report.ofOutcome? ((Term.runSource fuel source).run machine)

/-- The report of a program, if the fuel lasts. Its source is read in one way, and the files that
commands see are given apart. -/
def Program.run? (fuel : Nat) (draws : Draws) (input : List UInt8) (files : FileSystem)
    (readFile : String → Except FileError (List UInt8)) (program : Program) : Option Report :=
  match program.source readFile with
  | .ok source => runSource? fuel draws input files source
  | .error message => some (Report.error message "" "")

end KnightLang.CommandLine
