/-
Scripts: commands read line by line. A line is whole when its commands are; a line with a fault ends
the script, after the lines before it.
-/
import KnightLang.Shell.Token

namespace KnightLang.Shell

open Text (Raw)
open ReadM

/-- Where a list of commands stands. -/
inductive ListKind
  /-- On a line of its own. -/
  | line
  /-- Between keywords or parentheses, with at least one command. -/
  | block
  /-- Where there may be no command. -/
  | optional
deriving DecidableEq

/-- How the commands in commands are read. -/
structure CommandReaders where
  words : WordReaders
  list : ListKind → ReadM (Option Command)
  /-- Reads one command after newlines. -/
  command : ReadM Command

/-- The builtins that no function may take the name of. -/
def specialBuiltins : List Raw :=
  [".", ":", "break", "continue", "eval", "exec", "exit", "export", "local", "readonly", "return",
    "set", "shift", "times", "trap", "unset"].map String.toList

namespace CommandReaders

variable (r : CommandReaders)

/-- Reads a list with at least one command. At the end of the script it is empty, and what should
follow it is missed next. -/
def block : ReadM Command := return (← r.list .block).getD (.simple 0 [] [] [])

/-- Reads a given sign or keyword. -/
def expect (wanted : Token) (text : String) : ReadM Unit := do
  let t ← readToken r.words
  unless t.is text do unexpected t (some wanted)

/-- Reads a given keyword after newlines. -/
def expectAfterNewlines (text : String) : ReadM Unit := do
  let t ← readToken r.words true true
  unless t.is text do unexpected t (some (.keyword text.toList))

/-- Reads the target of a redirection. -/
def target (stream : Nat) (kind : RedirectionKind) : ReadM Redirection := do
  let context := match kind with
    | .document _ => Context.ending
    | _ => .bare
  match ← readToken r.words false false context with
  | .word w =>
    match kind with
    | .access a => pure (.file stream a w)
    | .duplicate => pure (.duplicate stream w)
    | .document stripTabs =>
      let state ← get
      let index := state.documents
      let ending := w.filterMap fun part =>
        match part with
        | .char c _ => some c
        | _ => none
      let document : PendingDocument :=
        { index, ending, literal := (Word.plain? w).isNone, stripTabs }
      set { state with documents := index + 1, pending := state.pending ++ [document] }
      pure (.document stream ((state.known.lookup index).getD []))
  | t => unexpected t

/-- Reads the redirections after a command. -/
def redirections : ReadM (List Redirection) := do
  repeats (fun (before, keywords) => do
    match ← readToken r.words false keywords with
    | .redirection stream kind => pure (.inl ((← r.target stream kind) :: before, false))
    | t =>
      putBack t
      pure (.inr before.reverse)) ([], true)

/-! ## Simple commands -/

/-- What a simple command is made of so far, each part last one first. -/
structure SimpleParts where
  assignments : List Word := []
  words : List Word := []
  redirections : List Redirection := []

/-- Reads the definition of a function after its name and opening parenthesis. -/
def definition (name : Word) : ReadM Command := do
  r.expect (.sign [')']) ")"
  match Word.plain? name with
  | some name =>
    if Raw.isName name ∧ ¬specialBuiltins.contains name then
      pure (.define name (← r.command))
    else fail "Bad function name".toList
  | none => fail "Bad function name".toList

/-- Reads a simple command, or the definition of a function. -/
def simple : ReadM Command := do
  let line := (← get).line
  repeats (fun (parts : SimpleParts) => do
    let finish (t : Token) : ReadM (SimpleParts ⊕ Command) := do
      putBack t
      pure <| .inr <|
        .simple line parts.assignments.reverse parts.words.reverse parts.redirections.reverse
    match ← readToken r.words with
    | .word w =>
      if parts.words.isEmpty ∧ Word.isAssignment w then
        pure (.inl { parts with assignments := w :: parts.assignments })
      else pure (.inl { parts with words := w :: parts.words })
    | .redirection stream kind =>
      pure (.inl { parts with redirections := (← r.target stream kind) :: parts.redirections })
    | t =>
      match parts with
      | { assignments := [], words := [name], redirections := [] } =>
        if t.is "(" then pure (.inr (← r.definition name)) else finish t
      | _ => finish t) {}

/-! ## Compound commands -/

/-- Reads the rest of a condition after its first keyword. -/
def branch (fuel : Nat) : ReadM Command := do
  match fuel with
  | 0 => fail "script too long".toList
  | fuel + 1 =>
    let test ← r.block
    r.expect (.keyword "then".toList) "then"
    let yes ← r.block
    let t ← readToken r.words
    if t.is "elif" then pure (.branch test yes (some (← branch fuel)))
    else if t.is "else" then pure (.branch test yes (some (← r.block)))
    else
      putBack t
      pure (.branch test yes none)

/-- Reads the values of a loop: those listed, or all parameters. -/
def eachValues : ReadM (List Word) := do
  let t ← readToken r.words true true
  if t.is "in" then
    repeats (fun values => do
      match ← readToken r.words with
      | .word w => pure (.inl (w :: values))
      | .newline => pure (.inr values.reverse)
      | t => if t.is ";" then pure (.inr values.reverse) else unexpected t) []
  else
    unless t.is ";" do putBack t
    pure [allParameters]

/-- Reads a loop over values after its first keyword. -/
def each (line : Nat) : ReadM Command := do
  match ← readToken r.words with
  | .word w =>
    match Word.plain? w with
    | some name =>
      if Raw.isName name then
        let values ← r.eachValues
        r.expectAfterNewlines "do"
        pure (.each line name values (← r.block))
      else fail "Bad for loop variable".toList
    | none => fail "Bad for loop variable".toList
  | _ => fail "Bad for loop variable".toList

/-- The word that a token stands for among patterns. -/
def patternWord : Token → Word
  | .word w => w
  | .keyword text => text.map (Part.char · false)
  | _ => []

/-- Reads a clause of a choice after its first token. -/
def clause (first : Token) : ReadM Clause := do
  let first ← if first.is "(" then readToken r.words else pure first
  let patterns ← repeats (fun patterns => do
    let t ← readToken r.words
    if t.is "|" then pure (.inl (patternWord (← readToken r.words) :: patterns))
    else if t.is ")" then pure (.inr patterns.reverse)
    else unexpected t (some (.sign [')']))) [patternWord first]
  pure (.mk patterns (← r.list .optional))

/-- Reads a choice after its first keyword. -/
def choice (line : Nat) : ReadM Command := do
  match ← readToken r.words with
  | .word subject =>
    r.expectAfterNewlines "in"
    let clauses ← repeats (fun clauses => do
      let t ← readToken r.words true true
      if t.is "esac" then pure (.inr clauses.reverse)
      else
        let clauses := (← r.clause t) :: clauses
        let t ← readToken r.words true true
        if t.is "esac" then pure (.inr clauses.reverse)
        else if t.is ";;" then pure (.inl clauses)
        else unexpected t (some (.sign [';', ';']))) []
    pure (.choice line subject clauses)
  | t => unexpected t (some (.word []))

/-- A compound command with its redirections. -/
def withRedirections (line : Nat) (c : Command) (redirections : List Redirection) : Command :=
  match c, redirections with
  | .subshell line c [], redirections => .subshell line c redirections
  | c, [] => c
  | c, redirections => .redirected line c redirections

/-- Reads a command. -/
def oneCommand (newlines keywords : Bool) : ReadM Command := do
  let line := (← get).line
  let t ← readToken r.words newlines keywords
  let compound (body : ReadM Command) (closing : Option Token) : ReadM Command := do
    let c ← body
    match closing with
    | some closing =>
      let t ← readToken r.words
      unless t.describe = closing.describe do unexpected t (some closing)
    | none => pure ()
    pure (withRedirections line c (← r.redirections))
  let loop (whileFailing : Bool) : ReadM Command := do
    let test ← r.block
    r.expect (.keyword "do".toList) "do"
    pure (.loop whileFailing test (← r.block))
  let keyword (text : String) : Option Token := some (.keyword text.toList)
  match t with
  | .word _ | .redirection .. =>
    putBack t
    r.simple
  | .keyword text =>
    match String.ofList text with
    | "if" => compound (r.branch (← get).limit) (keyword "fi")
    | "while" => compound (loop false) (keyword "done")
    | "until" => compound (loop true) (keyword "done")
    | "for" => compound (r.each line) (keyword "done")
    | "case" => compound (r.choice line) none
    | "\x7b" => compound r.block (keyword "\x7d")
    | _ => unexpected t
  | .sign ['('] =>
    compound (do pure (.subshell line (← r.block) [])) (some (.sign [')']))
  | _ => unexpected t

/-! ## Lists of commands -/

/-- Reads commands with pipes between them. -/
def pipeline (newlines keywords : Bool) : ReadM Command := do
  let t ← readToken r.words newlines keywords
  let negated := t.is "!"
  unless negated do putBack t
  let first ← r.oneCommand false negated
  let stages ← repeats (fun stages => do
    let t ← readToken r.words
    if t.is "|" then pure (.inl ((← r.oneCommand true true) :: stages))
    else
      putBack t
      pure (.inr stages.reverse)) [first]
  let c : Command := match stages with
    | [c] => c
    | stages => .pipeline stages
  pure (if negated then .negation c else c)

/-- Reads commands that depend on the success of those before. -/
def dependent : ReadM Command := do
  let first ← r.pipeline false false
  repeats (fun before => do
    let t ← readToken r.words
    if t.is "&&" then pure (.inl (.andThen before (← r.pipeline true true)))
    else if t.is "||" then pure (.inl (.orElse before (← r.pipeline true true)))
    else
      putBack t
      pure (.inr before)) first

/-- Reads a list of commands. -/
def commandList (kind : ListKind) : ReadM (Option Command) :=
  repeats (fun ((before, mayEnd) : Option Command × Bool) => do
    let finish (t : Token) : ReadM ((Option Command × Bool) ⊕ Option Command) := do
      putBack t
      pure (.inr before)
    let t ← readToken r.words (kind ≠ .line) true
    match t with
    | .newline =>
      readDocuments r.words
      return .inr before
    | .endOfFile =>
      readDocuments r.words
      return ← finish t
    | _ => pure ()
    if mayEnd ∧ kind ≠ .line ∧ t.endsList then return ← finish t
    putBack t
    let line := (← get).line
    let c ← r.dependent
    let t ← readToken r.words
    let c := if t.is "&" then .background line c else c
    let all := match before with
      | some before => Command.sequence before c
      | none => c
    match t with
    | .endOfFile =>
      readDocuments r.words
      putBack t
      pure (.inr (some all))
    | .newline =>
      putBack t
      pure (.inl (some all, true))
    | t =>
      if t.is "&" ∨ t.is ";" then pure (.inl (some all, true))
      else if kind = .line then unexpected t
      else
        putBack t
        pure (.inr (some all))) (none, decide (kind = .optional))

end CommandReaders

open CommandReaders

mutual

/-- Reads the parts of a word, with at most `fuel` levels of nesting. -/
def partsReader : (fuel : Nat) → Context → ReadM Word
  | 0, _ => fail "script too deep".toList
  | fuel + 1, context =>
    readParts ⟨partsReader fuel, listReader fuel .optional, closingReader fuel⟩ context

/-- Reads the parenthesis that closes commands in a word. -/
def closingReader : (fuel : Nat) → ReadM Unit
  | 0 => fail "script too deep".toList
  | fuel + 1 => do
    let words : WordReaders := ⟨partsReader fuel, listReader fuel .optional, closingReader fuel⟩
    let t ← readToken words
    unless t.is ")" do unexpected t (some (.sign [')']))

/-- Reads a list of commands, with at most `fuel` levels of nesting. -/
def listReader : (fuel : Nat) → ListKind → ReadM (Option Command)
  | 0, _ => fail "script too deep".toList
  | fuel + 1, kind =>
    let words : WordReaders := ⟨partsReader fuel, listReader fuel .optional, closingReader fuel⟩
    commandList ⟨words, listReader fuel, commandReader fuel⟩ kind

/-- Reads one command after newlines, with at most `fuel` levels of nesting. -/
def commandReader : (fuel : Nat) → ReadM Command
  | 0 => fail "script too deep".toList
  | fuel + 1 =>
    let words : WordReaders := ⟨partsReader fuel, listReader fuel .optional, closingReader fuel⟩
    oneCommand ⟨words, listReader fuel, commandReader fuel⟩ true true

end

/-! ## Scripts -/

/-- A line of commands, and the number of the line after it. -/
structure ScriptLine where
  command : Command
  next : Nat

/-- The lines of a script, and the fault after them if there is one. -/
structure Script where
  lines : List ScriptLine := []
  fault : Option ScriptError := none

/-- Reads a line: its commands, if there are any, or nothing at the end of the script. -/
def readLine : ReadM (Option (Option Command)) := do
  let c ← listReader ((← get).limit + 2) .line
  match c, (← get).token with
  | none, some .endOfFile => pure none
  | c, _ => pure (some c)

/-- Reads a line, and again if it has documents, which come after their redirections: each reading
puts in place the documents of one more level. -/
def readWholeLine : ReadM (Option (Option Command)) := do
  let start ← get
  let first ← readLine
  let levels := (← get).deepest
  let c ← (List.range levels).foldlM (fun _ _ => do
    let known := (← get).found
    set { start with known }
    readLine) first
  modify fun state => { state with documents := 0, found := [], known := [], deepest := 0 }
  pure c

/-- Reads the lines of a script after the given ones, last one first. -/
def readLines : (fuel : Nat) → (before : List ScriptLine) → ReadState → Script
  | 0, before, _ => { lines := before.reverse }
  | fuel + 1, before, state =>
    match readWholeLine.run state with
    | .error fault => { lines := before.reverse, fault := some fault }
    | .ok (none, _) => { lines := before.reverse }
    | .ok (some none, state) => readLines fuel before state
    | .ok (some (some command), state) =>
      readLines fuel ({ command, next := state.line } :: before) state

/-- The script that a text writes. -/
def Script.ofText (text : Raw) : Script :=
  readLines (text.length + 2) [] { text, limit := 4 * text.length + 16 }

end KnightLang.Shell
