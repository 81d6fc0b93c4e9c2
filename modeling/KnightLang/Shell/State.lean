/-
The state of a shell. A process has variables, functions, streams and so on; a subshell works on a
copy of them. Files and the texts in pipes are shared by all processes.
-/
import KnightLang.Host.FileSystem
import KnightLang.Shell.Grammar
import KnightLang.Text.RawNumeral

namespace KnightLang.Shell

open Text (Raw)

/-- Where a stream leads. -/
inductive Channel
  /-- Reads what is left in a pipe. -/
  | source (pipe : Nat)
  /-- Adds to a pipe. -/
  | sink (pipe : Nat)
  /-- Adds to the file at a place. -/
  | file (place : Place)
  /-- Takes in everything and gives nothing. -/
  | nothing
deriving DecidableEq

/-- A variable; one without a value may still have properties. -/
structure Variable where
  value : Option Raw := none
  exported : Bool := false
  readOnly : Bool := false

/-- What a subshell has a copy of. -/
structure Process where
  /-- The name of the shell in its messages. -/
  name : Raw := "/bin/sh".toList
  bindings : List (Raw × Variable) := []
  functions : List (Raw × Command) := []
  parameters : List Raw := []
  streams : List (Nat × Channel)
  directory : Place
  /-- The names of the options that are on. -/
  options : List String := []
  /-- The status of the last command. -/
  status : Nat := 0
  /-- The status of the last command inside a word. -/
  wordStatus : Nat := 0
  /-- The number of loops around the current command. -/
  loops : Nat := 0
  /-- For each function that is running, the variables to restore after it. -/
  calls : List (List (Raw × Option Variable)) := []
  /-- Whether a failure of the current command is looked at. -/
  tested : Bool := false
  /-- The commands to run before the process ends. -/
  onExit : Option Raw := none
  /-- The line of the current command. -/
  line : Nat := 1
  /-- The line up to which the script is read. -/
  lineRead : Nat := 1
  /-- The builtin that is running. -/
  builtin : Option Raw := none

/-- The state of a shell. -/
structure State where
  process : Process
  files : FileSystem
  /-- The texts in pipes: one that is read is in order, and one that is written has its last
  character first. -/
  pipes : Array Raw
  /-- The commands that are to run beside the others. -/
  jobs : List (Process × Command) := []

/-- Why a command does not come to its end. -/
inductive Interruption
  /-- The process ends. -/
  | exit
  /-- The process ends, unless a builtin that is not special is to blame. -/
  | fault
  /-- The process ends at once. -/
  | killed
  /-- So many loops end. -/
  | breaks (loops : Nat)
  /-- So many loops end, but the last one goes on. -/
  | continues (loops : Nat)
  /-- The function ends. -/
  | returns
  /-- There is no fuel left. -/
  | stuck

/-- A computation of a shell. -/
abbrev ShellM := ExceptT Interruption (StateM State)

namespace ShellM

def process : ShellM Process := return (← get).process

def modifyProcess (f : Process → Process) : ShellM Unit :=
  modify fun state => { state with process := f state.process }

def setStatus (status : Nat) : ShellM Unit := modifyProcess ({ · with status })

def status : ShellM Nat := return (← process).status

/-! ## Streams -/

/-- Puts a text into a new pipe that is read. -/
def newSource (text : Raw) : ShellM Channel := do
  let state ← get
  set { state with pipes := state.pipes.push text }
  pure (.source state.pipes.size)

/-- Makes a new pipe that is written. -/
def newSink : ShellM Channel := do
  let state ← get
  set { state with pipes := state.pipes.push [] }
  pure (.sink state.pipes.size)

/-- What was written to a channel. -/
def written (channel : Channel) : ShellM Raw := do
  match channel with
  | .sink pipe => return ((← get).pipes.getD pipe []).reverse
  | _ => pure []

/-- Writes a text to a stream, if the stream can be written. -/
def write (stream : Nat) (text : Raw) : ShellM Bool := do
  let state ← get
  match state.process.streams.lookup stream with
  | some (.sink pipe) =>
    set { state with pipes := state.pipes.modify pipe (text.reverseAux ·) }
    pure true
  | some (.file place) =>
    let before := match state.files.entry? place with
      | some (.file bytes) => bytes
      | _ => []
    set { state with files := state.files.write place (before ++ Raw.toBytes text) }
    pure true
  | some .nothing => pure true
  | _ => pure text.isEmpty

/-- Everything that a stream still gives. -/
def readAll (stream : Nat) : ShellM (Option Raw) := do
  let state ← get
  match state.process.streams.lookup stream with
  | some (.source pipe) =>
    set { state with pipes := state.pipes.setIfInBounds pipe [] }
    pure (some (state.pipes.getD pipe []))
  | some .nothing => pure (some [])
  | _ => pure none

/-- The next character of a stream. -/
def readChar? (stream : Nat) : ShellM (Option Char) := do
  let state ← get
  match state.process.streams.lookup stream with
  | some (.source pipe) =>
    match state.pipes.getD pipe [] with
    | c :: rest =>
      set { state with pipes := state.pipes.setIfInBounds pipe rest }
      pure (some c)
    | [] => pure none
  | _ => pure none

/-! ## Messages -/

/-- Shows a message, with the line and the builtin that it is about. -/
def warn (message : Raw) : ShellM Unit := do
  let p ← process
  let place := p.name ++ ": ".toList ++ Raw.ofNat p.line ++ ": ".toList
  let builtin := match p.builtin with
    | some name => name ++ ": ".toList
    | none => []
  let _ ← write 2 (place ++ builtin ++ message ++ ['\n'])

/-- Shows a message and ends the process, unless a builtin is to blame. -/
def fail {α : Type} (message : Raw) (status : Nat := 2) : ShellM α := do
  warn message
  setStatus status
  throw .fault

/-! ## Variables -/

/-- A variable, if it has a value or properties. -/
def lookupVariable? (name : Raw) : ShellM (Option Variable) :=
  return (← process).bindings.lookup name

/-- The value of a variable. -/
def value? (name : Raw) : ShellM (Option Raw) :=
  return (← lookupVariable? name).bind Variable.value

/-- The value of a variable, empty if it has none. -/
def value (name : String) : ShellM Raw := return (← value? name.toList).getD []

/-- Keeps a variable, or forgets it. -/
def putVariable (name : Raw) (x : Option Variable) : ShellM Unit :=
  modifyProcess fun p =>
    let others := p.bindings.filter (·.1 ≠ name)
    { p with bindings := match x with
      | some x => (name, x) :: others
      | none => others }

/-- Gives a variable a value. -/
def assign (name value : Raw) (exported : Bool := false) : ShellM Unit := do
  unless Raw.isName name do fail (name ++ ": bad variable name".toList)
  let x := (← lookupVariable? name).getD {}
  if x.readOnly then fail (name ++ ": is read only".toList)
  putVariable name (some { x with value := some value, exported := x.exported || exported })

/-- Notes a variable that is to be restored at the end of the function that is running. -/
def noteLocal (name : Raw) : ShellM Unit := do
  let x ← lookupVariable? name
  modifyProcess fun p =>
    match p.calls with
    | saved :: calls => { p with calls := ((name, x) :: saved) :: calls }
    | [] => p

/-- Runs a command with variables that are restored after it. -/
def withLocals {α : Type} (body : ShellM α) : ShellM α := do
  modifyProcess fun p => { p with calls := [] :: p.calls }
  let restore : ShellM Unit := do
    match (← process).calls with
    | saved :: calls =>
      modifyProcess ({ · with calls })
      saved.forM fun (name, x) => putVariable name x
    | [] => pure ()
  try
    let result ← body
    restore
    pure result
  catch e =>
    restore
    throw e

/-- Whether an option is on. -/
def hasOption (name : String) : ShellM Bool := return (← process).options.contains name

end ShellM

end KnightLang.Shell
