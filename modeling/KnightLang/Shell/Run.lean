/-
Running commands. A command changes the state of the shell and leaves a status; subshells, stages
of pipelines and commands in words work on a copy of the process. How the commands in a command are
run is given as a function, so that one recursion with fuel runs them all.
-/
import KnightLang.Host.Command
import KnightLang.Shell.Program

namespace KnightLang.Shell

open Text (Raw)
open ShellM

/-- A way to run a command. -/
abbrev Runner := Command → ShellM Unit

/-! ## Scripts -/

/-- Runs the lines of a script, and says whether there were any. -/
def runScript (again : Runner) (script : Script) : ShellM Bool := do
  script.lines.forM fun line => do
    modifyProcess ({ · with lineRead := line.next })
    again line.command
  match script.fault with
  | some fault =>
    modifyProcess ({ · with lineRead := fault.line })
    failGrammar fault.message
  | none => pure !script.lines.isEmpty

/-- Runs the script that a text writes. Its status is zero if there is nothing in it. -/
def runText (again : Runner) (text : Raw) : ShellM Unit := do
  let lineRead := (← process).lineRead
  unless ← runScript again (Script.ofText text) do setStatus 0
  modifyProcess ({ · with lineRead })

/-! ## Processes -/

/-- Runs the commands that a process has asked for before its end. The status stays unless they end
the process themselves. -/
def runExitCommands (again : Runner) : ShellM Unit := do
  match (← process).onExit with
  | none => pure ()
  | some action =>
    modifyProcess ({ · with onExit := none })
    let status ← status
    try
      runText again action
      setStatus status
    catch
      | .stuck => throw .stuck
      | .exit => pure ()
      | _ => setStatus status

/-- Runs a body to its end as a process of its own, up to the commands before its end. -/
def finishProcess (again : Runner) (body : ShellM Unit) : ShellM Unit := do
  try
    try body
    catch
      | .stuck => throw .stuck
      | .killed => throw .killed
      | _ => pure ()
    runExitCommands again
  catch
    | .stuck => throw .stuck
    | _ => pure ()

/-- Runs the commands that wait to run beside the others, at most `fuel` of them. -/
def runJobs (again : Runner) : (fuel : Nat) → ShellM Unit
  | 0 => pure ()
  | fuel + 1 => do
    let state ← get
    match state.jobs with
    | [] => pure ()
    | (process, command) :: jobs =>
      set { state with process, jobs }
      finishProcess again (again command)
      modify ({ · with process := state.process })
      runJobs again fuel

/-- The number of commands that may run beside the others. -/
def jobLimit : Nat := 0x10000

/-- Runs a body on a copy of the process, and keeps its status only. -/
def inSubshell (again : Runner) (body : ShellM Unit) : ShellM Unit := do
  let saved ← process
  modifyProcess ({ · with onExit := none })
  finishProcess again body
  runJobs again jobLimit
  let status ← status
  modifyProcess fun _ => { saved with status := status % 256 }

/-- Runs a body whose failure is looked at. -/
def withTested {α : Type} (tested : Bool) (body : ShellM α) : ShellM α := do
  let before := (← process).tested
  modifyProcess ({ · with tested })
  try
    let result ← body
    modifyProcess ({ · with tested := before })
    pure result
  catch e =>
    modifyProcess ({ · with tested := before })
    throw e

/-- Ends the process after a failure that is not looked at, if an option asks for that. -/
def checkFailure : ShellM Unit := do
  let p ← process
  if p.status ≠ 0 ∧ p.options.contains "errexit" ∧ ¬p.tested then throw .exit

/-- The text that a command prints, without the newlines at its end. -/
def runOutput (again : Runner) (command : Option Command) : ShellM Raw := do
  match command with
  | none =>
    modifyProcess ({ · with wordStatus := 0 })
    pure []
  | some c =>
    let status ← status
    let sink ← newSink
    inSubshell again (withTested false (do
      setStream 1 (some sink)
      again c))
    modifyProcess fun p => { p with status, wordStatus := p.status }
    let text ← written sink
    pure (Raw.trimNewlines (text.filter (·.toNat ≠ 0)))

/-- How words are expanded, with at most `fuel` levels of nesting. -/
def expander (again : Runner) : (fuel : Nat) → Expander
  | 0 => { word := fun _ _ => throw .stuck, output := fun _ => throw .stuck }
  | fuel + 1 =>
    { word := fun setting w => do
        let w ← expandTildes .start w
        expandParts (expander again fuel) setting w
      output := runOutput again }

/-! ## Simple commands -/

/-- Shows a command before it runs, if an option asks for that. -/
def trace (parts : List Raw) : ShellM Unit := do
  if ← hasOption "xtrace" then
    let _ ← write 2 ("+ ".toList ++ Raw.join [' '] parts ++ ['\n'])

/-- Runs a function. -/
def runFunction (again : Runner) (body : Command) (arguments : List Raw) : ShellM Unit := do
  let p ← process
  let restore : ShellM Unit :=
    modifyProcess ({ · with parameters := p.parameters, loops := p.loops })
  try
    withLocals do
      modifyProcess ({ · with parameters := arguments, loops := 0 })
      try again body
      catch
        | .returns => pure ()
        | e => throw e
    restore
  catch e =>
    restore
    throw e

/-- Runs a builtin. A fault in it ends the process if it is special. -/
def runBuiltin (name : Raw) (special : Bool) (body : ShellM Nat) : ShellM Unit := do
  let before := (← process).builtin
  modifyProcess ({ · with builtin := some name })
  let restore : ShellM Unit := modifyProcess ({ · with builtin := before })
  try
    let status ← body
    setStatus status
    restore
  catch e =>
    restore
    match e with
    | .fault => if special then throw .fault
    | e => throw e

/-- How a command that is not found is reported: the reason and the status. -/
def notFound (command : Raw) : ShellM (Raw × Nat) := do
  let state ← get
  if command.isEmpty then pure ("Permission denied".toList, 127)
  else if command.contains '/' then
    match state.files.locate state.process.directory (Raw.decode command) with
    | .ok place =>
      if (state.files.entry? place).isSome then pure ("Permission denied".toList, 126)
      else pure ("not found".toList, 127)
    | .error _ => pure ("not found".toList, 127)
  else pure ("not found".toList, 127)

/-- Runs a new shell with the variables that are passed on. -/
def runShell (again : Runner) (name : Raw) (arguments : List Raw) : ShellM Unit := do
  let start (name text : Raw) (parameters : List Raw) : ShellM Unit :=
    inSubshell again do
      modifyProcess fun p =>
        { name, parameters, streams := p.streams, directory := p.directory
          bindings := p.bindings.filter fun (x, y) => y.exported || x = "IFS".toList }
      runText again text
  match arguments with
  | ['-', 'c'] :: text :: [] => start name text []
  | ['-', 'c'] :: text :: name :: parameters => start name text parameters
  | _ =>
    match ← readAll 0 with
    | some text => start name text []
    | none => setStatus 2

/-- Runs a program, or reports that there is none. -/
def runProgram (again : Runner) (command : Raw) (arguments : List Raw) : ShellM Unit := do
  let name := Program.nameOf command
  if name = "sh".toList ∨ name = "dash".toList then runShell again command arguments
  else
    match Program.find? name with
    | some body =>
      let p ← process
      try
        let status ← body arguments
        setStatus status
      catch
        | .fault => pure ()
        | e => throw e
      modifyProcess ({ · with builtin := p.builtin })
    | none =>
      let (reason, status) ← notFound command
      warn (command ++ ": ".toList ++ reason)
      setStatus status

/-- The builtins that run commands, but for `command`. -/
def commandBuiltins : List Raw := ["eval", ".", "exec", "wait"].map String.toList

/-- Whether a name stands for a program. -/
def isProgram (name : Raw) : Bool :=
  let name := Program.nameOf name
  (Program.find? name).isSome || (["sh", "dash"].map String.toList).contains name

/-- The kinds of what a name may stand for in front of arguments. -/
inductive Kind
  | special
  | function (body : Command)
  | builtin
  | program
  | missing

/-- What a name stands for, with or without regard to functions. -/
def kindOf (functions : Bool) (name : Raw) : ShellM Kind := do
  let defined := (← process).functions
  if specialBuiltins.contains name then pure .special
  else
    match if functions then defined.lookup name else none with
    | some body => pure (.function body)
    | none =>
      if (Builtin.find? name).isSome ∨
          (["command", "type", "wait"].map String.toList).contains name then
        pure .builtin
      else pure (if isProgram name then .program else .missing)

/-- Says what names stand for. -/
def describe (names : List Raw) : ShellM Nat := do
  let outcomes ← names.mapM fun name => do
    let say (text : String) : ShellM Bool := do
      let _ ← Builtin.emit (name ++ text.toList ++ ['\n'])
      pure true
    if Token.keywords.contains name then say " is a shell keyword"
    else
      match ← kindOf true name with
      | .special => say " is a special shell builtin"
      | .function _ => say " is a shell function"
      | .builtin => say " is a shell builtin"
      | .program => say (" is /usr/bin/" ++ String.ofList (Program.nameOf name))
      | .missing =>
        let _ ← say ": not found"
        pure false
  pure (if outcomes.all id then 0 else 127)

/-- Says how a name is called in a command. -/
def locateCommand (name : Raw) : ShellM Nat := do
  if Token.keywords.contains name then Builtin.emit (name ++ ['\n'])
  else
    match ← kindOf true name with
    | .missing => pure 127
    | .program =>
      if name.contains '/' then Builtin.emit (name ++ ['\n'])
      else Builtin.emit ("/usr/bin/".toList ++ name ++ ['\n'])
    | _ => Builtin.emit (name ++ ['\n'])

/-- Runs a builtin that runs commands. -/
def runCommandBuiltin (again : Runner) (name : Raw) (arguments : List Raw) : ShellM Nat := do
  match String.ofList name with
  | "eval" =>
    if arguments.isEmpty then pure 0
    else
      runText again (Raw.join [' '] arguments)
      status
  | "." =>
    match arguments with
    | [] => pure 0
    | path :: _ =>
      let state ← get
      match state.files.readFrom state.process.directory (Raw.decode path) with
      | .ok bytes =>
        if path.contains '/' then
          try runText again (Raw.ofBytes bytes)
          catch
            | .returns => pure ()
            | e => throw e
          status
        else fail (path ++ ": not found".toList)
      | .error _ =>
        if path.contains '/' then fail ("cannot open ".toList ++ path ++ ": No such file".toList)
        else fail (path ++ ": not found".toList)
  | "exec" =>
    match arguments with
    | [] => pure 0
    | command :: arguments =>
      if isProgram command then
        modifyProcess ({ · with builtin := none, onExit := none })
        runProgram again command arguments
        throw .exit
      else
        let (reason, status) ← notFound command
        fail (command ++ ": ".toList ++ reason) status
  | "wait" =>
    runJobs again jobLimit
    pure 0
  | "type" => describe arguments
  | _ => pure 0

/-- A command with its words expanded. -/
structure Call where
  name : Raw
  arguments : List Raw
  /-- Whether functions count. -/
  functions : Bool := true
  /-- Whether a fault ends the process. -/
  special : Bool

/-- The call that words make: `command` in front of them turns functions off. -/
def callOf : (fuel : Nat) → (special : Option Bool) → (functions : Bool) → Raw → List Raw → Call
  | 0, special, functions, name, arguments =>
    { name, arguments, functions, special := special.getD false }
  | fuel + 1, special, functions, name, arguments =>
    let special := special.getD (specialBuiltins.contains name)
    if name = "command".toList then
      match arguments with
      | ['-', 'p'] :: next :: rest | ['-', '-'] :: next :: rest =>
        callOf fuel (some special) false next rest
      | ('-' :: _) :: _ | [] => { name, arguments, functions, special }
      | next :: rest => callOf fuel (some special) false next rest
    else { name, arguments, functions, special }

/-- Runs a call. -/
def runCall (again : Runner) (call : Call) : ShellM Unit := do
  let { name, arguments, functions, special } := call
  match ← kindOf functions name with
  | .function body => runFunction again body arguments
  | .special | .builtin =>
    if name = "command".toList then
      runBuiltin name false <|
        match arguments with
        | ['-', 'v'] :: name :: _ => locateCommand name
        | ['-', 'V'] :: name :: _ => describe [name]
        | _ => pure 0
    else
      match Builtin.find? name with
      | some body => runBuiltin name special (body arguments)
      | none => runBuiltin name special (runCommandBuiltin again name arguments)
  | .program | .missing => runProgram again name arguments

/-- The builtins whose arguments may be assignments. -/
def declaringBuiltins : List Raw := ["export", "readonly", "local"].map String.toList

/-- The words of a command expanded. Assignments in the arguments of some builtins make one text
each. -/
def expandCall (x : Expander) : List Word → ShellM (List Raw)
  | [] => pure []
  | w :: ws => do
    match ← expandFields x w with
    | [] => expandCall x ws
    | name :: first =>
      let declares := declaringBuiltins.contains name
      let rest ← ws.mapM fun w =>
        if declares ∧ Word.isAssignment w then return [← expandText x .afterSigns w]
        else expandFields x w
      pure (name :: first ++ rest.flatten)

/-- The name and the value that a word of an assignment writes. -/
def expandAssignment (x : Expander) (w : Word) : ShellM (Raw × Raw) := do
  let text ← expandText x .afterSigns w
  let name := text.takeWhile (· ≠ '=')
  pure (name, text.drop (name.length + 1))

/-- Expands assignments one after the other and makes each of them. -/
def makeAssignments (x : Expander) (make : Raw → Raw → ShellM Unit) (ws : List Word) :
    ShellM (List Raw) :=
  ws.mapM fun w => do
    let (name, value) ← expandAssignment x w
    make name value
    pure (name ++ '=' :: value)

/-- Runs a simple command. -/
def runSimple (again : Runner) (x : Expander) (line : Nat) (assignments words : List Word)
    (redirections : List Redirection) : ShellM Unit := do
  modifyProcess ({ · with line, wordStatus := 0 })
  let words ← expandCall x words
  let redirections ← redirections.mapM (expandRedirection x)
  let changed := redirections.map Redirected.stream
  let errors := (← process).streams.lookup 2
  let traced (assigned : List Raw) : ShellM Unit :=
    withStreams [2] do
      setStream 2 errors
      trace (assigned ++ words)
  match words with
  | [] =>
    withStreams changed do
      if ← redirectAll x redirections then
        let assigned ← makeAssignments x (assign · ·) assignments
        unless assigned.isEmpty do traced assigned
        modifyProcess fun p => { p with status := p.wordStatus }
  | name :: arguments =>
    let call := callOf (words.length + 1) none true name arguments
    let body : ShellM Unit := do
      if ← redirectAll x redirections then
        if call.special ∨ assignments.isEmpty then
          traced (← makeAssignments x (assign · ·) assignments)
          runCall again call
        else
          withLocals do
            let make (name value : Raw) : ShellM Unit := do
              noteLocal name
              assign name value true
            traced (← makeAssignments x make assignments)
            runCall again call
      else if call.special then throw .fault
    if call.name = "exec".toList then body else withStreams changed body

/-! ## Compound commands -/

/-- Runs a round of a loop, and says whether the loop goes on. -/
def runRound (body : ShellM Unit) : ShellM Bool := do
  try
    body
    pure true
  catch
    | .breaks n => if 1 < n then throw (.breaks (n - 1)) else pure false
    | .continues n => if 1 < n then throw (.continues (n - 1)) else pure true
    | e => throw e

/-- Runs a body as that of a loop. -/
def inLoop (body : ShellM Unit) : ShellM Unit := do
  let loops := (← process).loops
  modifyProcess ({ · with loops := loops + 1 })
  try
    body
    modifyProcess ({ · with loops })
  catch e =>
    modifyProcess ({ · with loops })
    throw e

/-- Runs a loop with a test, given the status of the last round. -/
def runLoop (again : Runner) (whileFailing : Bool) (test body : Command) :
    (fuel : Nat) → (last : Nat) → ShellM Unit
  | 0, _ => throw .stuck
  | fuel + 1, last => do
    let tested ← runRound (withTested true (again test))
    if !tested then setStatus last
    else if ((← status) = 0) = whileFailing then setStatus last
    else if ← runRound (again body) then
      runLoop again whileFailing test body fuel (← status)
    else pure ()

/-- Runs a body with each of some values of a variable. -/
def runEach (again : Runner) (name : Raw) (body : Command) : List Raw → ShellM Unit
  | [] => pure ()
  | value :: values => do
    assign name value
    if ← runRound (again body) then runEach again name body values

/-- Whether one of some patterns stands for a text. -/
def anyMatches (x : Expander) (text : Raw) : List Word → ShellM Bool
  | [] => pure false
  | pattern :: patterns => do
    let glyphs ← expandGlyphs x {} .start pattern
    if matchesPattern glyphs text then pure true else anyMatches x text patterns

/-- Runs the first clause with a pattern that stands for a text. -/
def runChoice (again : Runner) (x : Expander) (text : Raw) : List Clause → ShellM Unit
  | [] => setStatus 0
  | .mk patterns body :: clauses => do
    if ← anyMatches x text patterns then
      match body with
      | some body => again body
      | none => setStatus 0
    else runChoice again x text clauses

/-- Runs the stages of a pipeline, each of which reads what the one before it prints and finds the
status from before the pipeline. -/
def runStages (again : Runner) (before : Nat) (input : Option Channel) :
    List Command → ShellM Unit
  | [] => pure ()
  | c :: rest => do
    let sink ← if rest.isEmpty then pure none else some <$> newSink
    setStatus before
    inSubshell again <| withTested false do
      if let some input := input then setStream 0 (some input)
      if let some sink := sink then setStream 1 (some sink)
      again c
    match sink with
    | some sink => runStages again before (some (← newSource (← written sink))) rest
    | none => pure ()

/-- Runs a command, given how the commands in it are run and how many rounds a loop may have. -/
def runStep (again : Runner) (fuel : Nat) : Command → ShellM Unit
  | .simple line assignments words redirections => do
    runSimple again (expander again fuel) line assignments words redirections
    checkFailure
  | .pipeline stages => do
    runStages again (← status) none stages
    checkFailure
  | .negation c => do
    withTested true (again c)
    setStatus (if (← status) = 0 then 1 else 0)
  | .andThen first second => do
    withTested true (again first)
    if (← status) = 0 then again second
  | .orElse first second => do
    withTested true (again first)
    if (← status) ≠ 0 then again second
  | .sequence first second => do
    again first
    again second
  | .background line c => do
    let process ← process
    let job := { process with
      line, tested := false, onExit := none
      streams := (0, .nothing) :: process.streams.filter (·.1 ≠ 0) }
    modify fun state => { state with jobs := state.jobs ++ [(job, c)] }
    setStatus 0
  | .subshell line c redirections => do
    modifyProcess ({ · with line })
    let x := expander again fuel
    let redirections ← redirections.mapM (expandRedirection x)
    inSubshell again do
      if ← redirectAll x redirections then again c else throw .fault
    checkFailure
  | .redirected line c redirections => do
    modifyProcess ({ · with line })
    let x := expander again fuel
    let redirections ← redirections.mapM (expandRedirection x)
    withStreams (redirections.map Redirected.stream) do
      if ← redirectAll x redirections then again c
  | .branch test yes no => do
    withTested true (again test)
    if (← status) = 0 then again yes
    else
      match no with
      | some no => again no
      | none => setStatus 0
  | .loop whileFailing test body => inLoop (runLoop again whileFailing test body fuel 0)
  | .each line name values body => do
    modifyProcess ({ · with line })
    let values ← expandArguments (expander again fuel) values
    if values.isEmpty then setStatus 0 else inLoop (runEach again name body values)
  | .choice line subject clauses => do
    modifyProcess ({ · with line })
    let x := expander again fuel
    let text ← expandText x .start subject
    runChoice again x text clauses
  | .define name body => do
    modifyProcess fun p =>
      { p with functions := (name, body) :: p.functions.filter (·.1 ≠ name) }
    setStatus 0

/-- Runs a command, with at most `fuel` levels of nesting and rounds of a loop. -/
def runCommand : (fuel : Nat) → Command → ShellM Unit
  | 0, _ => throw .stuck
  | fuel + 1, c => runStep (runCommand fuel) fuel c

/-! ## Command lines -/

/-- The variables that a shell starts with. -/
def startVariables (files : FileSystem) : List (Raw × Variable) :=
  let exported (name : String) (value : Raw) : Raw × Variable :=
    (name.toList, { value := some value, exported := true })
  let plain (name : String) (value : Raw) : Raw × Variable :=
    (name.toList, { value := some value })
  [exported "HOME" "/root".toList,
    exported "PATH" "/usr/local/sbin:/usr/local/bin:/usr/sbin:/usr/bin:/sbin:/bin".toList,
    exported "PWD" (Builtin.pathOf files.home), plain "IFS" defaultSeparators,
    plain "OPTIND" ['1'], plain "PS1" "# ".toList, plain "PS2" "> ".toList,
    plain "PS4" "+ ".toList]

/-- The state of a shell at its start: the input, the output and the errors are its first pipes. -/
def startState (files : FileSystem) (input : List UInt8) : State where
  process :=
    { streams := [(0, .source 0), (1, .sink 1), (2, .sink 2)]
      directory := files.home, bindings := startVariables files }
  files
  pipes := #[Raw.ofBytes input, [], []]

/-- How much fuel a command line gets. -/
def ampleFuel : Nat := 0x40000000

/-- Runs a command line with files and an input. One that starts with a sign reads as options. -/
def run (files : FileSystem) (input : List UInt8) (line : Raw) : CommandResult :=
  let again := runCommand ampleFuel
  let body : ShellM Unit := do
    finishProcess again <|
      if line.head? = some '-' ∨ line.head? = some '+' then Options.failCommandLine line
      else runText again line
    runJobs again jobLimit
  let (_, state) := body.run.run (startState files input)
  let pipe (n : Nat) : Raw := state.pipes.getD n []
  { printed := Raw.toBytes (pipe 1).reverse
    errors := Raw.toBytes (pipe 2).reverse
    status := state.process.status % 256
    files := state.files
    input := Raw.toBytes (pipe 0) }

/-- The greatest number of bytes in a command line. -/
def lengthLimit : Nat := 131071

/-- The shell: it starts no command line that is too long or has a null character. -/
def shell : CommandShell := fun files input command =>
  if command.contains (Char.ofNat 0) then .error "nul byte found in provided data"
  else if lengthLimit < command.utf8ByteSize then .error "Argument list too long (os error 7)"
  else .ok (run files input (Raw.ofString command))

end KnightLang.Shell
