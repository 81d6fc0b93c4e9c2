/-
Options of a shell: each has a name, and most have a letter. Groups of letters after a sign turn
options on or off.
-/
import KnightLang.Shell.State

namespace KnightLang.Shell.Options

open Text (Raw)
open ShellM

/-- The names of the options and the letters of those that have one, in the order in which they are
listed. -/
def table : List (String × Option Char) :=
  [("errexit", some 'e'), ("noglob", some 'f'), ("ignoreeof", some 'I'), ("interactive", some 'i'),
    ("monitor", some 'm'), ("noexec", some 'n'), ("stdin", some 's'), ("xtrace", some 'x'),
    ("verbose", some 'v'), ("vi", some 'V'), ("emacs", some 'E'), ("noclobber", some 'C'),
    ("allexport", some 'a'), ("notify", some 'b'), ("nounset", some 'u'), ("privileged", some 'p'),
    ("nolog", none), ("debug", none)]

/-- The names of the options. -/
def names : List String := table.map Prod.fst

/-- The letters of options that are on, the last option first. -/
def letters (on : List String) : Raw :=
  (table.filter fun (name, _) => on.contains name).reverse.filterMap Prod.snd

/-- Turns an option on or off. -/
def turn (on : Bool) (name : String) : ShellM Unit :=
  modifyProcess fun p =>
    let others := p.options.filter (· ≠ name)
    { p with options := if on then name :: others else others }

/-- The state of all options: as a table, or as commands that bring it about. -/
def listing (asTable : Bool) (on : List String) : Raw :=
  let lines := names.map fun name =>
    let isOn := on.contains name
    let blanks := List.replicate (16 - name.length) ' '
    if asTable then name.toList ++ blanks ++ (if isOn then "on\n" else "off\n").toList
    else (if isOn then "set -o " else "set +o ").toList ++ name.toList ++ ['\n']
  (if asTable then "Current option settings\n".toList else []) ++ lines.flatten

/-- Turns the options in a group of letters on or off, and gives the arguments that are left. The
letter `o` takes a name from the arguments, and lists the options if there is none. -/
def setGroup (on : Bool) : Raw → List Raw → ShellM (List Raw)
  | [], arguments => pure arguments
  | 'o' :: letters, [] => do
    let _ ← write 1 (listing on (← process).options)
    setGroup on letters []
  | 'o' :: letters, name :: arguments => do
    let known := names.find? (·.toList = name)
    match known with
    | some option => turn on option
    | none => fail ("Illegal option -o ".toList ++ name)
    setGroup on letters arguments
  | letter :: letters, arguments => do
    match table.find? (·.2 = some letter) with
    | some (option, _) => turn on option
    | none => fail ("Illegal option -".toList ++ [letter])
    setGroup on letters arguments

/-- Reads options, at most `fuel` groups of them, and takes the other arguments as parameters. -/
def setFrom : (fuel : Nat) → List Raw → ShellM Unit
  | 0, _ => pure ()
  | fuel + 1, arguments => do
    let parameters (parameters : List Raw) : ShellM Unit :=
      modifyProcess ({ · with parameters })
    match arguments with
    | [] => pure ()
    | ['-', '-'] :: rest => parameters rest
    | ['-'] :: rest =>
      turn false "xtrace"
      turn false "verbose"
      unless rest.isEmpty do parameters rest
    | ('-' :: letters) :: rest => setFrom fuel (← setGroup true letters rest)
    | ('+' :: letters) :: rest => setFrom fuel (← setGroup false letters rest)
    | arguments => parameters arguments

/-- Fails at a command line that reads as options and leaves no command. All options count as on
until the command line turns them off. -/
def failCommandLine (line : Raw) : ShellM Unit := do
  modifyProcess ({ · with options := names, line := 0 })
  let letters := (line.drop 1).filter fun c => c ≠ 'c' ∧ c ≠ 'l'
  unless line = ['-', '-'] do
    let _ ← setGroup (line.head? = some '-') letters []
  fail "-c requires an argument".toList

end KnightLang.Shell.Options
