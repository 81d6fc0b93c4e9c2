/-
Redirections: the streams of a command lead to files, to other streams or to texts while it runs.
-/
import KnightLang.Shell.Expansion

namespace KnightLang.Shell

open Text (Raw)
open ShellM

/-- A redirection with its target expanded. -/
inductive Redirected
  | file (stream : Nat) (access : Access) (path : Raw)
  /-- The stream becomes the same as another one, or is closed. -/
  | duplicate (stream : Nat) (source : Option Nat)
  /-- The stream reads a text, which is still to be expanded. -/
  | document (stream : Nat) (text : Word)

/-- Fails at something that the grammar does not allow. -/
def failGrammar {α : Type} (message : Raw) : ShellM α := do
  modifyProcess fun p => { p with line := p.lineRead }
  fail ("Syntax error: ".toList ++ message)

/-- A redirection with its target expanded. -/
def expandRedirection (x : Expander) : Redirection → ShellM Redirected
  | .file stream access path => return .file stream access (← expandText x .start path)
  | .document stream text => pure (.document stream text)
  | .duplicate stream source => do
    match ← expandText x .start source with
    | ['-'] => pure (.duplicate stream none)
    | [c] =>
      match Raw.digit? 10 c with
      | some d => pure (.duplicate stream (some d))
      | none => failGrammar "Bad fd number".toList
    | _ => failGrammar "Bad fd number".toList

/-- The stream that a path names. -/
def namedStream? (path : Raw) : Option Nat :=
  match String.ofList path with
  | "/dev/stdin" => some 0
  | "/dev/stdout" => some 1
  | "/dev/stderr" => some 2
  | _ =>
    if "/dev/fd/".toList.isPrefixOf path then
      match Raw.decimal? (path.drop 8) with
      | some (n, []) => some n
      | _ => none
    else none

/-- What a file error is called where a file is to be read or written. -/
def accessFault (creates : Bool) : FileError → String
  | .missing | .notDirectory => if creates then "Directory nonexistent" else "No such file"
  | .isDirectory => "Is a directory"
  | .nameTooLong => "File name too long"
  | .other reason => reason

/-- Makes a stream lead to a channel. -/
def setStream (stream : Nat) (channel : Option Channel) : ShellM Unit :=
  modifyProcess fun p =>
    let others := p.streams.filter (·.1 ≠ stream)
    { p with streams := match channel with
      | some channel => (stream, channel) :: others
      | none => others }

/-- The channel of a stream that is open. -/
def channelOf (stream : Nat) : ShellM Channel := do
  match (← process).streams.lookup stream with
  | some channel => pure channel
  | none => fail (Raw.ofNat stream ++ ": Bad file descriptor".toList)

/-- Opens a file. -/
def openFile (access : Access) (path : Raw) : ShellM Channel := do
  let creates := access ≠ .read
  let refuse {α : Type} (why : String) : ShellM α :=
    fail <| (if creates then "cannot create " else "cannot open ").toList ++ path ++
      ": ".toList ++ why.toList
  match namedStream? path with
  | some stream => channelOf stream
  | none =>
    let state ← get
    match state.files.locate state.process.directory (Raw.decode path) with
    | .error e => refuse (accessFault creates e)
    | .ok place =>
      if place = FileSystem.nullDevice then pure .nothing
      else
        match access, state.files.entry? place with
        | .read, some (.file bytes) | .readWrite, some (.file bytes) =>
          newSource (Raw.ofBytes bytes)
        | .read, some .directory => newSource []
        | .read, none => refuse "No such file"
        | .readWrite, none =>
          set { state with files := state.files.write place [] }
          newSource []
        | _, some .directory => refuse "Is a directory"
        | .append, some (.file _) => pure (.file place)
        | .write, some (.file _) =>
          if ← hasOption "noclobber" then refuse "File exists"
          else
            set { state with files := state.files.write place [] }
            pure (.file place)
        | _, none =>
          set { state with files := state.files.write place [] }
          pure (.file place)

/-- Makes a redirection. -/
def redirect (x : Expander) : Redirected → ShellM Unit
  | .file stream access path => do setStream stream (some (← openFile access path))
  | .duplicate stream none => setStream stream none
  | .duplicate stream (some source) => do
    unless source = stream do setStream stream (some (← channelOf source))
  | .document stream text => do setStream stream (some (← newSource (← expandText x .none text)))

/-- Makes redirections, and says whether all of them could be made. -/
def redirectAll (x : Expander) (redirections : List Redirected) : ShellM Bool := do
  try
    redirections.forM (redirect x)
    pure true
  catch
    | .fault => pure false
    | e => throw e

/-- The stream that a redirection changes. -/
def Redirected.stream : Redirected → Nat
  | file stream .. => stream
  | duplicate stream _ => stream
  | document stream _ => stream

/-- Runs a body after which the given streams are as they were before. -/
def withStreams {α : Type} (changed : List Nat) (body : ShellM α) : ShellM α := do
  let saved := (← process).streams.filter fun (n, _) => changed.contains n
  let restore : ShellM Unit :=
    modifyProcess fun p =>
      { p with streams := saved ++ p.streams.filter fun (n, _) => !changed.contains n }
  try
    let result ← body
    restore
    pure result
  catch e =>
    restore
    throw e

end KnightLang.Shell
