/-
Programs: commands that are no builtins and are found in a directory of programs.
-/
import KnightLang.Shell.Builtin

namespace KnightLang.Shell

open Text (Raw)
open ShellM

namespace Program

/-- Shows a message of a program. -/
def complain (message : Raw) : ShellM Unit := do
  let _ ← write 2 (message ++ ['\n'])

/-- The text of a file, or of the standard input for a dash, or why it cannot be read. -/
def contents (path : Raw) : ShellM (Except Raw Raw) := do
  if path = ['-'] then
    match ← readAll 0 with
    | some text => pure (.ok text)
    | none => pure (.error "Bad file descriptor".toList)
  else
    let state ← get
    match state.files.readFrom state.process.directory (Raw.decode path) with
    | .ok bytes => pure (.ok (Raw.ofBytes bytes))
    | .error .missing => pure (.error "No such file or directory".toList)
    | .error .isDirectory => pure (.error "Is a directory".toList)
    | .error .notDirectory => pure (.error "Not a directory".toList)
    | .error .nameTooLong => pure (.error "File name too long".toList)
    | .error (.other reason) => pure (.error reason.toList)

/-- Shows files one after the other. -/
def cat (arguments : List Raw) : ShellM Nat := do
  let named := if arguments.head? = some ['-', '-'] then arguments.drop 1 else arguments
  let paths := if named.isEmpty then [['-']] else named
  let outcomes ← paths.mapM fun path => do
    match ← contents path with
    | .ok text => write 1 text
    | .error reason =>
      complain ("cat: ".toList ++ path ++ ": ".toList ++ reason)
      pure false
  pure (if outcomes.all id then 0 else 1)

/-- Whether an argument is a group of options of `echo`. -/
def isEchoOption (s : Raw) : Bool :=
  match s with
  | '-' :: c :: letters => (c :: letters).all ['n', 'e', 'E'].contains
  | _ => false

/-- Shows its arguments, with escapes expanded if an option says so. -/
def echo (arguments : List Raw) : ShellM Nat := do
  let letters := (arguments.takeWhile isEchoOption).flatten
  let texts := arguments.dropWhile isEchoOption
  let ending : Raw := if letters.contains 'n' then [] else ['\n']
  let expands := (letters.filter fun c => c = 'e' || c = 'E').getLast? = some 'e'
  let text := if expands then echoed ending texts else Raw.join [' '] texts ++ ending
  let _ ← write 1 text
  pure 0

/-- The program with a name. -/
def find? (name : Raw) : Option (List Raw → ShellM Nat) :=
  match String.ofList name with
  | "cat" => some cat
  | "echo" => some echo
  | "true" => some fun _ => pure 0
  | "false" => some fun _ => pure 1
  | "printf" => some Builtin.print
  | "test" => some Builtin.condition
  | "[" => some Builtin.bracket
  | "pwd" => some Builtin.pwd
  | "sleep" => some fun _ => pure 0
  | _ => none

/-- The name of the program that a command names by itself or with its directory. -/
def nameOf (command : Raw) : Raw :=
  let directories := ["/bin/", "/usr/bin/"].map String.toList
  match directories.find? (·.isPrefixOf command) with
  | some directory => command.drop directory.length
  | none => command

end Program

end KnightLang.Shell
