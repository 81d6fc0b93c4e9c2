/-
The builtins that run no commands. Each takes its arguments and gives its status; a fault in the
arguments is shown and ends the builtin.
-/
import KnightLang.Shell.Condition
import KnightLang.Shell.Format
import KnightLang.Shell.Options
import KnightLang.Shell.Script
import KnightLang.Shell.Stream

namespace KnightLang.Shell

open Text (Raw)
open ShellM

namespace Builtin

/-! ## Arguments and output -/

/-- Shows a text on the standard output. -/
def emit (text : Raw) : ShellM Nat := do
  if ← write 1 text then pure 0
  else
    warn (((← process).builtin.getD []) ++ ": I/O error".toList)
    pure 1

/-- Fails at a text that is no number. -/
def illegalNumber {α : Type} (s : Raw) : ShellM α := fail ("Illegal number: ".toList ++ s)

/-- The number of 31 bits that an argument is. -/
def natural (s : Raw) : ShellM Nat :=
  match Raw.signed? Raw.decimal? s with
  | some (n, rest) =>
    if rest.all Raw.isSpace ∧ 0 ≤ n ∧ n ≤ 0x7FFFFFFF then pure n.toNat else illegalNumber s
  | none => illegalNumber s

/-- The letters of the options that arguments start with, and the other arguments. -/
def takeOptions (allowed : List Char) (arguments : List Raw) : ShellM (List Char × List Raw) :=
  match arguments with
  | ['-', '-'] :: rest => pure ([], rest)
  | ('-' :: c :: letters) :: rest => do
    match (c :: letters).find? (!allowed.contains ·) with
    | some c => fail ("Illegal option -".toList ++ [c])
    | none =>
      let (more, rest) ← takeOptions allowed rest
      pure (c :: letters ++ more, rest)
  | _ => pure ([], arguments)

/-- A text in quotes that read as the text. -/
def quote (s : Raw) : Raw :=
  ['\x27'] ++ Raw.join "'\x22'\x22'".toList (splitAtQuotes s) ++ ['\x27']
where
  /-- The parts of a text between its quotes. -/
  splitAtQuotes (s : Raw) : List Raw :=
    s.foldr (fun c parts =>
      if c = '\x27' then [] :: parts
      else
        match parts with
        | part :: parts => (c :: part) :: parts
        | [] => [[c]]) [[]]

/-! ## Printing -/

def echo (arguments : List Raw) : ShellM Nat :=
  match arguments with
  | ['-', 'n'] :: rest => emit (echoed [] rest)
  | _ => emit (echoed ['\n'] arguments)

def print (arguments : List Raw) : ShellM Nat := do
  let (_, arguments) ← takeOptions [] arguments
  match arguments with
  | [] => fail "usage: printf format [arg ...]".toList
  | format :: arguments =>
    let (text, warnings, fault) := formatted format arguments
    (warnings ++ fault.toList).forM warn
    if fault.isSome then
      let _ ← write 1 text
      setStatus 2
      throw .fault
    let status ← emit text
    pure (if warnings.isEmpty then status else 1)

/-! ## Conditions -/

/-- Whether a test of a file holds. -/
def fileHolds (files : FileSystem) (directory : Place) (letter : Char) (path : Raw) : Bool :=
  match files.locate directory (Raw.decode path) with
  | .error _ => false
  | .ok place =>
    match files.entry? place with
    | none => false
    | some .directory => ['e', 'd', 'r', 'w', 'x', 's', 'O', 'G'].contains letter
    | some (.file bytes) =>
      if place = FileSystem.nullDevice then ['e', 'c', 'r', 'w', 'O', 'G'].contains letter
      else ['e', 'f', 'r', 'w', 'O', 'G'].contains letter || (letter = 's' && !bytes.isEmpty)

def condition (words : List Raw) : ShellM Nat := do
  let state ← get
  match Condition.holds (fileHolds state.files state.process.directory) words with
  | .ok holds => pure (if holds then 0 else 1)
  | .error message => fail message

def bracket (words : List Raw) : ShellM Nat :=
  match words.reverse with
  | [']'] :: words => condition words.reverse
  | _ => fail "missing ]".toList

/-! ## Control -/

def exit (arguments : List Raw) : ShellM Nat := do
  match arguments with
  | s :: _ => setStatus ((← natural s) % 256)
  | [] => pure ()
  throw .exit

def return_ (arguments : List Raw) : ShellM Nat := do
  match arguments with
  | s :: _ => setStatus (← natural s)
  | [] => pure ()
  throw .returns

/-- Ends as many loops as an argument says, as far as there are loops. -/
def leave (interruption : Nat → Interruption) (arguments : List Raw) : ShellM Nat := do
  let n ← match arguments with
    | s :: _ => do
      let n ← natural s
      if n = 0 then illegalNumber s
      pure n
    | [] => pure 1
  let loops := (← process).loops
  if loops = 0 then pure 0
  else
    setStatus 0
    throw (interruption (min n loops))

def shift (arguments : List Raw) : ShellM Nat := do
  let n ← match arguments with
    | s :: _ => natural s
    | [] => pure 1
  let p ← process
  if p.parameters.length < n then fail "can't shift that many".toList
  modifyProcess ({ · with parameters := p.parameters.drop n })
  pure 0

/-! ## Variables -/

/-- The variables that a list of variables shows, by name. -/
def listing (command : Raw) (shown : Variable → Bool) : ShellM Raw := do
  let bindings := (← process).bindings.filter fun (_, x) => shown x
  let lines := bindings.map fun (name, x) =>
    let value := match x.value with
      | some s => '=' :: quote s
      | none => []
    command ++ name ++ value ++ ['\n']
  pure (lines.mergeSort Raw.notAfter).flatten

/-- An assignment as an argument: the name, and the value if there is one. -/
def nameAndValue (s : Raw) : Raw × Option Raw :=
  if s.contains '=' then
    let name := s.takeWhile (· ≠ '=')
    (name, some (s.drop (name.length + 1)))
  else (s, none)

/-- Gives variables a property, and values if there are any. -/
def declare (command : String) (has : Variable → Bool) (give : Variable → Variable)
    (arguments : List Raw) : ShellM Nat := do
  let (options, names) ← takeOptions ['p'] arguments
  if names.isEmpty ∨ options.contains 'p' then
    emit (← listing (command.toList ++ [' ']) has)
  else
    names.forM fun s => do
      let (name, value) := nameAndValue s
      match value with
      | some value => assign name value
      | none => unless Raw.isName name do fail (name ++ ": bad variable name".toList)
      putVariable name (some (give ((← lookupVariable? name).getD {})))
    pure 0

def export_ : List Raw → ShellM Nat :=
  declare "export" Variable.exported ({ · with exported := true })

def readonly : List Raw → ShellM Nat :=
  declare "readonly" Variable.readOnly ({ · with readOnly := true })

def local_ (arguments : List Raw) : ShellM Nat := do
  if (← process).calls.isEmpty then fail "not in a function".toList
  arguments.forM fun s => do
    let (name, value) := nameAndValue s
    noteLocal name
    match value with
    | some value => assign name value
    | none => unless Raw.isName name do fail (name ++ ": bad variable name".toList)
  pure 0

def unset (arguments : List Raw) : ShellM Nat := do
  let (options, names) ← takeOptions ['v', 'f'] arguments
  names.forM fun name => do
    if options.contains 'f' then
      modifyProcess fun p => { p with functions := p.functions.filter (·.1 ≠ name) }
    else
      unless Raw.isName name do fail (name ++ ": bad variable name".toList)
      if ((← lookupVariable? name).map Variable.readOnly).getD false then
        fail (name ++ ": is read only".toList)
      putVariable name none
  pure 0

/-! ## Options -/

def set (arguments : List Raw) : ShellM Nat := do
  if arguments.isEmpty then emit (← listing [] fun x => x.value.isSome)
  else
    Options.setFrom (arguments.length + 1) arguments
    pure 0

/-! ## Reading -/

/-- The characters of a line up to its newline, each with whether it is quoted, and whether the
line has a newline. A backslash quotes unless the line is raw. -/
def readCharacters (raw : Bool) : (fuel : Nat) → (before : List Glyph) → (quoting : Bool) →
    ShellM (List Glyph × Bool)
  | 0, before, _ => pure (before.reverse, true)
  | fuel + 1, before, quoting => do
    match ← readChar? 0 with
    | none => pure (before.reverse, false)
    | some c =>
      if c.toNat = 0 then readCharacters raw fuel before quoting
      else if quoting then
        readCharacters raw fuel (if c = '\n' then before else ⟨c, true⟩ :: before) false
      else if c = '\\' ∧ ¬raw then readCharacters raw fuel before true
      else if c = '\n' then pure (before.reverse, true)
      else readCharacters raw fuel (⟨c, false⟩ :: before) false

/-- Whether a glyph is a separator. -/
def separates (separators : Raw) (g : Glyph) : Bool := !g.quoted && separators.contains g.char

/-- Whether a glyph is a blank separator. -/
def separatesBlank (separators : Raw) (g : Glyph) : Bool :=
  separates separators g && defaultSeparators.contains g.char

/-- What follows the separators between two fields. -/
def afterGap (separators : Raw) (glyphs : List Glyph) : List Glyph :=
  match glyphs.dropWhile (separatesBlank separators) with
  | g :: rest =>
    if separates separators g then rest.dropWhile (separatesBlank separators) else g :: rest
  | [] => []

/-- The values that the fields of a line give to a number of names. The last name takes the rest of
the line, without the gap at its end. -/
def readFields (separators : Raw) : (names : Nat) → List Glyph → List Raw
  | 0, _ => []
  | names + 1, glyphs =>
    let first := glyphs.takeWhile (!separates separators ·)
    let rest := afterGap separators (glyphs.drop first.length)
    if names = 0 then
      if rest.isEmpty then [Glyph.text first]
      else [Glyph.text (glyphs.reverse.dropWhile (separatesBlank separators)).reverse]
    else Glyph.text first :: readFields separators names rest

def read (arguments : List Raw) : ShellM Nat := do
  let (options, names) ← takeOptions ['r'] arguments
  if names.isEmpty then fail "arg count".toList
  let left := (← get).pipes.foldl (fun n s => n + s.length) 1
  let (glyphs, complete) ← readCharacters (options.contains 'r') left [] false
  let separators ← separators
  let start := glyphs.dropWhile (separatesBlank separators)
  (names.zip (readFields separators names.length start)).forM fun (name, value) =>
    assign name value
  pure (if complete then 0 else 1)

/-! ## Directories -/

/-- The path of a place from the root. -/
def pathOf (place : Place) : Raw :=
  '/' :: Raw.join ['/'] (place.reverse.map Raw.ofString)

def cd (arguments : List Raw) : ShellM Nat := do
  let (_, arguments) ← takeOptions ['L', 'P'] arguments
  let target ← match arguments with
    | [] => value "HOME"
    | ['-'] :: _ => value "OLDPWD"
    | path :: _ => pure path
  let state ← get
  let place :=
    if target.isEmpty then .ok state.process.directory
    else state.files.locate state.process.directory (Raw.decode target)
  match place with
  | .error _ => fail ("can't cd to ".toList ++ target)
  | .ok place =>
    if state.files.entry? place = some .directory then
      assign "OLDPWD".toList (pathOf state.process.directory)
      modifyProcess ({ · with directory := place })
      assign "PWD".toList (pathOf place)
      if arguments.head? = some ['-'] then emit (pathOf place ++ ['\n']) else pure 0
    else fail ("can't cd to ".toList ++ target)

def pwd (_ : List Raw) : ShellM Nat := do emit (pathOf (← process).directory ++ ['\n'])

/-! ## Traps -/

/-- The names of signals, by number. -/
def signals : List String :=
  ["EXIT", "HUP", "INT", "QUIT", "ILL", "TRAP", "ABRT", "BUS", "FPE", "KILL", "USR1", "SEGV",
    "USR2", "PIPE", "ALRM", "TERM", "STKFLT", "CHLD", "CONT", "STOP", "TSTP", "TTIN", "TTOU",
    "URG", "XCPU", "XFSZ", "VTALRM", "PROF", "WINCH", "IO", "PWR", "SYS"]

/-- The name of the signal that an argument names. -/
def signal? (s : Raw) : Option String :=
  match Raw.decimal? s with
  | some (n, []) => signals[n]?
  | _ => signals.find? (·.toList = Raw.upper s)

/-- Sets the action for each of some signals, up to one that is unknown. -/
def trapEach (action : Raw) : List Raw → ShellM Nat
  | [] => pure 0
  | name :: names => do
    match signal? name with
    | some signal =>
      if signal = "EXIT" then
        modifyProcess ({ · with onExit := if action = ['-'] then none else some action })
      trapEach action names
    | none =>
      let _ ← write 2 ("trap: ".toList ++ name ++ ": bad trap\n".toList)
      pure 1

def trap (arguments : List Raw) : ShellM Nat := do
  let (_, arguments) ← takeOptions [] arguments
  match arguments with
  | [] =>
    match (← process).onExit with
    | some action => emit ("trap -- ".toList ++ quote action ++ " EXIT\n".toList)
    | none => pure 0
  | first :: rest =>
    let (action, names) := if rest.isEmpty then (['-'], [first]) else (first, rest)
    trapEach action names

/-! ## All builtins -/

/-- The builtin with a name. -/
def find? (name : Raw) : Option (List Raw → ShellM Nat) :=
  match String.ofList name with
  | "echo" => some echo
  | "printf" => some print
  | "test" => some condition
  | "[" => some bracket
  | "exit" => some exit
  | "return" => some return_
  | "break" => some (leave .breaks)
  | "continue" => some (leave .continues)
  | "shift" => some shift
  | "export" => some export_
  | "readonly" => some readonly
  | "local" => some local_
  | "unset" => some unset
  | "set" => some set
  | "read" => some read
  | "cd" | "chdir" => some cd
  | "pwd" => some pwd
  | "trap" => some trap
  | ":" | "true" | "hash" | "jobs" | "times" => some fun _ => pure 0
  | "false" => some fun _ => pure 1
  | "umask" => some fun arguments => if arguments.isEmpty then emit "0022\n".toList else pure 0
  | "ulimit" => some fun _ => emit "unlimited\n".toList
  | _ => none

end Builtin

end KnightLang.Shell
