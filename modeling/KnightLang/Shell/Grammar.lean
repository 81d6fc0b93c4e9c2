/-
Commands as they are read: words made of characters and expansions, and the commands made of words.
Nothing is expanded yet.
-/
import KnightLang.Text.Raw

namespace KnightLang.Shell

open Text (Raw)

/-- An end of a text. -/
inductive Side
  | start
  | finish
deriving DecidableEq

/-- What stands for a parameter, in terms of its value and a word. -/
inductive Usage (ω : Type)
  | value
  | length
  /-- The word if there is no value, or if `orEmpty` and the value is empty. -/
  | default (orEmpty : Bool) (word : ω)
  /-- The same, and the parameter takes the word as its value. -/
  | assign (orEmpty : Bool) (word : ω)
  /-- The value; if there is none, an error with the word as its message. -/
  | require (orEmpty : Bool) (word : ω)
  /-- The word if there is a value. -/
  | alternative (orEmpty : Bool) (word : ω)
  /-- The value without what a pattern stands for at one side. -/
  | trim (side : Side) (longest : Bool) (pattern : ω)
  /-- Nothing that is known. -/
  | unknown

/-- How the target of a redirection is opened. -/
inductive Access
  | read
  | write
  | append
  | readWrite
deriving DecidableEq

mutual

/-- A part of a word. -/
inductive Part
  | char (c : Char) (quoted : Bool)
  /-- A quotation mark; a word with one is there even if it is empty. -/
  | mark
  | parameter (name : Raw) (usage : Usage (List Part)) (quoted : Bool)
  /-- What a command prints. -/
  | output (command : Option Command) (quoted : Bool)
  /-- The value of an arithmetic expression. -/
  | arithmetic (expression : List Part) (quoted : Bool)

/-- A change of where a command reads or writes. -/
inductive Redirection
  | file (stream : Nat) (access : Access) (path : List Part)
  /-- The stream becomes the same as another one, or none. -/
  | duplicate (stream : Nat) (source : List Part)
  /-- The stream reads a text. -/
  | document (stream : Nat) (text : List Part)

/-- A clause of a choice: patterns, and the command for them. -/
inductive Clause
  | mk (patterns : List (List Part)) (body : Option Command)

/-- A command. -/
inductive Command
  | simple (line : Nat) (assignments words : List (List Part)) (redirections : List Redirection)
  | pipeline (stages : List Command)
  | negation (c : Command)
  | andThen (first second : Command)
  | orElse (first second : Command)
  | sequence (first second : Command)
  | background (line : Nat) (c : Command)
  | subshell (line : Nat) (c : Command) (redirections : List Redirection)
  | redirected (line : Nat) (c : Command) (redirections : List Redirection)
  | branch (test yes : Command) (no : Option Command)
  /-- Runs the body as long as the test succeeds, or as long as it fails. -/
  | loop (whileFailing : Bool) (test body : Command)
  | each (line : Nat) (name : Raw) (values : List (List Part)) (body : Command)
  | choice (line : Nat) (subject : List Part) (clauses : List Clause)
  | define (name : Raw) (body : Command)

end

/-- A word. -/
abbrev Word := List Part

/-- The characters of a word without quotes and expansions. -/
def Word.plain? (w : Word) : Option Raw :=
  w.mapM fun part =>
    match part with
    | .char c false => some c
    | _ => none

/-- The characters at the start of a word that no quotes surround. -/
def Word.start (w : Word) : Raw :=
  match w with
  | .char c false :: rest => c :: start rest
  | _ => []

/-- Whether a word gives a value to a name. -/
def Word.isAssignment (w : Word) : Bool :=
  let start := Word.start w
  start.contains '=' && Raw.isName (start.takeWhile (· ≠ '='))

/-- The word that stands for all positional parameters. -/
def allParameters : Word := [.mark, .parameter ['@'] .value true, .mark]

end KnightLang.Shell
