/-
Tokens of a script: words, keywords, redirections and the signs between commands. Words are read
with their quotes and expansions; a command inside a word is read by a reader given for that.
-/
import KnightLang.Shell.Grammar

namespace KnightLang.Shell

open Text (Raw)

/-- What a redirection does with its target. -/
inductive RedirectionKind
  | access (a : Access)
  | duplicate
  /-- Reads the lines after this one up to an ending. -/
  | document (stripTabs : Bool)

/-- A token of a script. -/
inductive Token
  | endOfFile
  | newline
  | sign (text : Raw)
  | keyword (text : Raw)
  | word (w : Word)
  | redirection (stream : Nat) (kind : RedirectionKind)

namespace Token

/-- The words with a meaning of their own where a command may start. -/
def keywords : List Raw :=
  ["!", "case", "do", "done", "elif", "else", "esac", "fi", "for", "if", "in", "then", "until",
    "while", "\x7b", "\x7d"].map String.toList

/-- How a token is called in messages. -/
def describe : Token → Raw
  | endOfFile => "end of file".toList
  | newline => "newline".toList
  | sign text | keyword text => '\x22' :: text ++ ['\x22']
  | word _ => "word".toList
  | redirection .. => "redirection".toList

/-- Whether a token is a given sign or keyword. -/
def is (text : String) : Token → Bool
  | sign t | keyword t => t = text.toList
  | _ => false

/-- Whether a token ends a list of commands. -/
def endsList : Token → Bool
  | endOfFile => true
  | sign t => [[')'], [';', ';']].contains t
  | keyword t =>
    (["do", "done", "elif", "else", "esac", "fi", "then", "\x7d"].map String.toList).contains t
  | _ => false

end Token

/-! ## Reading -/

/-- A fault in the grammar of a script. -/
structure ScriptError where
  line : Nat
  message : Raw

/-- A document whose lines are still to be read. -/
structure PendingDocument where
  index : Nat
  ending : Raw
  /-- Whether the lines are taken as they are. -/
  literal : Bool
  stripTabs : Bool

/-- The state of reading. -/
structure ReadState where
  /-- The text still to be read. -/
  text : Raw
  line : Nat := 1
  /-- A token that is to be read again. -/
  token : Option Token := none
  /-- The documents whose lines come after this line. -/
  pending : List PendingDocument := []
  /-- The number of documents met so far. -/
  documents : Nat := 0
  /-- The documents read so far, by number. -/
  found : List (Nat × Word) := []
  /-- The documents known from an earlier reading, by number. -/
  known : List (Nat × Word) := []
  /-- The document that is being read. -/
  document : Option PendingDocument := none
  /-- What follows the document, once its ending is reached. -/
  afterDocument : Option Raw := none
  /-- The number of documents around this place. -/
  depth : Nat := 0
  /-- The greatest number of documents inside one another so far. -/
  deepest : Nat := 0
  /-- How often a loop of reading may go round. -/
  limit : Nat

/-- A computation that reads a script. -/
abbrev ReadM := StateT ReadState (Except ScriptError)

namespace ReadM

def fail {α : Type} (message : Raw) : ReadM α := do
  throw ⟨(← get).line, message⟩

/-- Fails at a token. -/
def unexpected {α : Type} (t : Token) (wanted : Option Token := none) : ReadM α :=
  fail <| t.describe ++ " unexpected".toList ++
    (match wanted with
    | some t => " (expecting ".toList ++ t.describe ++ [')']
    | none => [])

/-- Repeats a step until it has a result. -/
def repeats {α β : Type} (step : α → ReadM (α ⊕ β)) (a : α) : ReadM β := do
  go (← get).limit a
where
  /-- The same, at most a number of times. -/
  go : Nat → α → ReadM β
    | 0, _ => fail "script too long".toList
    | n + 1, a => do
      match ← step a with
      | .inl a => go n a
      | .inr b => pure b

/-! ### Characters -/

/-- The text after the pairs of a backslash and a newline that it starts with, and their number. -/
def dropJoins : (pairs : Nat) → Raw → Raw × Nat
  | pairs, '\\' :: '\n' :: s => dropJoins (pairs + 1) s
  | pairs, s => (s, pairs)

/-- Takes the next character. -/
def next? : ReadM (Option Char) := do
  let state ← get
  match state.text with
  | [] => pure none
  | c :: text =>
    set { state with text, line := if c = '\n' then state.line + 1 else state.line }
    pure (some c)

/-- Looks at the next character outside pairs of a backslash and a newline. -/
def peek? : ReadM (Option Char) := do
  let state ← get
  let (text, pairs) := dropJoins 0 state.text
  set { state with text, line := state.line + pairs }
  pure text.head?

/-- Takes the next character outside pairs of a backslash and a newline. -/
def joined? : ReadM (Option Char) := do
  let _ ← peek?
  next?

/-- Takes the next character as a sign in an expansion: no line ends with it. -/
def sign? : ReadM (Option Char) := do
  let _ ← peek?
  let line := (← get).line
  let c ← next?
  modify ({ · with line })
  pure c

/-- Takes the next character if it is the given one. -/
def take? (c : Char) : ReadM Bool := do
  if (← peek?) = some c then
    let _ ← next?
    pure true
  else pure false

/-- Takes the characters that a name or number goes on with. -/
def takeWhile (p : Char → Bool) : ReadM Raw :=
  repeats (fun taken => do
    match ← peek? with
    | some c =>
      if p c then
        let _ ← next?
        pure (.inl (c :: taken))
      else pure (.inr taken.reverse)
    | none => pure (.inr taken.reverse)) []

end ReadM

open ReadM

/-! ## Words -/

/-- What surrounds a character of a word. -/
inductive Context
  | bare
  /-- The ending of a document, where nothing is expanded. -/
  | ending
  /-- The ending of a document inside double quotes. -/
  | quotedEnding
  | double
  /-- The word in an expansion outside double quotes. -/
  | bareBraces
  /-- The word in an expansion inside double quotes. -/
  | doubleBraces
  | arithmetic
  /-- The lines of a document. -/
  | document
deriving DecidableEq

/-- Whether characters are quoted. -/
def Context.isQuoted : Context → Bool
  | bare | ending | bareBraces => false
  | quotedEnding | double | doubleBraces | arithmetic | document => true

/-- Whether nothing is expanded. -/
def Context.isEnding (c : Context) : Bool := c = .ending || c = .quotedEnding

/-- Whether a context is that of a word in an expansion. -/
def Context.isBraces (c : Context) : Bool := c = .bareBraces || c = .doubleBraces

/-- Whether a backslash takes the meaning from a character, and does not stand for itself. -/
def Context.escapes (context : Context) (c : Char) : Bool :=
  !context.isQuoted || c = '\\' || c = '\x60' || c = '$' ||
    (c = '\x22' && context ≠ .document) || (c = '\x7d' && context.isBraces)

/-- Whether a word ends before a character outside quotes. -/
def isMeta (c : Char) : Bool := [' ', '\t', '\n', '<', '>', ';', '&', '|', '(', ')'].contains c

/-- The names of the parameters that are no names and no numbers. -/
def isSpecial (c : Char) : Bool := ['!', '*', '#', '$', '-', '?', '@'].contains c

/-- How words and the commands in them are read. -/
structure WordReaders where
  parts : Context → ReadM Word
  /-- Reads commands up to an end of a list. -/
  commands : ReadM (Option Command)
  /-- Reads the closing parenthesis after commands. -/
  closing : ReadM Unit

/-- Reads what follows the name of a parameter, given that a brace surrounds both. -/
def readUsage (r : WordReaders) (context : Context) : ReadM (Usage Word) := do
  let outer := if context.isQuoted then Context.doubleBraces else .bareBraces
  let orEmpty ← take? ':'
  match ← sign? with
  | some '\x7d' =>
    if orEmpty then
      let _ ← r.parts outer
      pure .unknown
    else pure .value
  | some '-' => pure (.default orEmpty (← r.parts outer))
  | some '=' => pure (.assign orEmpty (← r.parts outer))
  | some '?' => pure (.require orEmpty (← r.parts outer))
  | some '+' => pure (.alternative orEmpty (← r.parts outer))
  | some c =>
    if (c = '#' ∨ c = '%') ∧ ¬orEmpty then
      let longest ← take? c
      pure (.trim (if c = '#' then .start else .finish) longest (← r.parts .bareBraces))
    else
      let _ ← r.parts outer
      pure .unknown
  | none =>
    let _ ← r.parts outer
    pure .unknown

/-- Reads the name of a parameter, if there is one: a name, a number or a sign. -/
def readName (singleDigit : Bool) : ReadM Raw := do
  match ← peek? with
  | some c =>
    if Raw.isNameStart c then takeWhile Raw.isNameChar
    else if Raw.isDigit c ∧ ¬singleDigit then takeWhile Raw.isDigit
    else if Raw.isDigit c ∨ isSpecial c then
      let _ ← next?
      pure [c]
    else pure []
  | none => pure []

/-- Reads the rest of an expansion after its dollar sign and brace. -/
def readBraces (r : WordReaders) (context : Context) : ReadM (Raw × Usage Word) := do
  let unknown (_ : Unit) : ReadM (Raw × Usage Word) := do
    let _ ← r.parts (if context.isQuoted then .doubleBraces else .bareBraces)
    pure ([], .unknown)
  let start ← get
  if ← take? '#' then
    let afterSign ← get
    let name ← readName true
    if name.isEmpty then
      let sign ← sign?
      let closes := (← peek?) = some '\x7d'
      if sign ≠ some '\x7d' ∧ closes then return ← unknown ()
    else if ← take? '\x7d' then return (name, .length)
    else if name.all Raw.isNameChar then return ← unknown ()
    set afterSign
    return (['#'], ← readUsage r context)
  set start
  let name ← readName false
  if name.isEmpty then
    unless (← peek?) = some '\x7d' do
      let _ ← sign?
    unknown ()
  else pure (name, ← readUsage r context)

/-- Reads the text of a command between backquotes up to the closing one. -/
def readBackquoted (context : Context) : ReadM Raw :=
  repeats (fun taken => do
    match ← joined? with
    | some '\x60' => pure (.inr taken.reverse)
    | some '\\' =>
      match ← next? with
      | some c =>
        let special := c = '\\' || c = '\x60' || c = '$' || (c = '\x22' && context.isQuoted)
        pure (.inl (if special then c :: taken else c :: '\\' :: taken))
      | none => pure (.inl ('\\' :: taken))
    | some c => pure (.inl (c :: taken))
    | none => fail "EOF in backquote substitution".toList) []

/-- Reads with a text of its own in place of the rest of the script. -/
def readInside {α : Type} (text : Raw) (reader : ReadM α) : ReadM α := do
  let outer ← get
  set { outer with
    text, line := 1, token := none, pending := [], document := none, afterDocument := none }
  let result ← reader
  let inner ← get
  set { outer with documents := inner.documents, found := inner.found, deepest := inner.deepest }
  pure result

/-- Reads what follows a dollar sign. -/
def readDollar (r : WordReaders) (context : Context) : ReadM Part := do
  let quoted := context.isQuoted
  match ← peek? with
  | some '(' =>
    let _ ← next?
    if ← take? '(' then pure (.arithmetic (← r.parts .arithmetic) quoted)
    else
      let outer ← get
      set { outer with pending := [], token := none, document := none }
      let command ← r.commands
      r.closing
      modify fun state =>
        { state with pending := outer.pending, token := none, document := outer.document }
      pure (.output command quoted)
  | some '\x7b' =>
    let _ ← next?
    let (name, usage) ← readBraces r context
    pure (.parameter name usage quoted)
  | _ =>
    let name ← readName true
    if name.isEmpty then pure (.char '$' quoted) else pure (.parameter name .value quoted)

/-- How far the parts of a word are read: the parts, last one first, whether quotes inside an
expansion are open, and the number of open parentheses. -/
structure PartsState where
  parts : Word := []
  inner : Bool := false
  depth : Nat := 0

/-- The failure of a word that the script, or a document, ends in. -/
def unfinishedWord {α : Type} (context : Context) : ReadM α := do
  let inDocument := (← get).document.isSome
  if context = .arithmetic then fail "Missing '))'".toList
  else if inDocument ∨ context = .bareBraces then fail "Missing '\x7d'".toList
  else fail "Unterminated quoted string".toList

/-- Where a line of a document starts, ends the document if the line is its ending. After tabs that
are dropped, a backslash before a newline stands for itself: the two are given, last one first. -/
def startLine : ReadM Word := do
  match (← get).document with
  | none => pure []
  | some d =>
    unless d.literal do
      let _ ← peek?
    let state ← get
    let text := if d.stripTabs then state.text.dropWhile (· = '\t') else state.text
    let rest := text.drop d.ending.length
    if d.ending.isPrefixOf text ∧ rest.head?.all (· = '\n') then
      set { state with text := [], afterDocument := some (rest.drop 1), line := state.line + 1 }
      pure []
    else
      match d.literal, text with
      | false, '\\' :: '\n' :: text =>
        set { state with text }
        pure [.char '\n' true, .char '\\' true]
      | _, text =>
        set { state with text }
        pure []

/-- Reads the next part of a word, or ends it. -/
def readPart (r : WordReaders) (context : Context) (state : PartsState) :
    ReadM (PartsState ⊕ Word) := do
  let quoted := context.isQuoted
  let add (parts : Word) : ReadM (PartsState ⊕ Word) :=
    pure (.inl { state with parts := parts ++ state.parts })
  let finish (_ : Unit) : ReadM (PartsState ⊕ Word) := pure (.inr state.parts.reverse)
  let isBare := context = .bare || context = .ending
  let isOpen := isBare || context = .bareBraces
  match ← peek? with
  | none => if isBare ∨ context = .document then finish () else unfinishedWord context
  | some c =>
    if isBare ∧ isMeta c then return ← finish ()
    let _ ← next?
    let literal := add [.char c quoted]
    match c with
    | '\n' => add ((← startLine) ++ [.char c quoted])
    | '\\' =>
      match ← next? with
      | none => add [.char '\\' true]
      | some d =>
        if context.escapes d then add [.char d true]
        else add [.char d true, .char '\\' true]
    | '\x27' =>
      if isOpen then
        let text ← repeats (fun taken => do
          match ← next? with
          | some '\x27' => pure (.inr taken)
          | some c =>
            let more ← if c = '\n' then startLine else pure []
            pure (.inl (more ++ Part.char c true :: taken))
          | none => unfinishedWord .double) []
        add (.mark :: text ++ [.mark])
      else literal
    | '\x22' =>
      match context with
      | .double | .quotedEnding => finish ()
      | .doubleBraces =>
        pure (.inl { state with parts := .mark :: state.parts, inner := !state.inner })
      | .arithmetic | .document => literal
      | .bare | .ending | .bareBraces =>
        let text ← r.parts (if context = .ending then .quotedEnding else .double)
        add (.mark :: text.reverse ++ [.mark])
    | '$' => if context.isEnding then literal else add [← readDollar r context]
    | '\x60' =>
      if context.isEnding then literal
      else
        let text ← readBackquoted context
        let command ← readInside text r.commands
        add [.output command quoted]
    | '\x7d' =>
      if context.isBraces ∧ ¬state.inner then finish () else literal
    | '(' =>
      if context = .arithmetic then
        pure (.inl { state with parts := .char c true :: state.parts, depth := state.depth + 1 })
      else literal
    | ')' =>
      if context ≠ .arithmetic then literal
      else if 0 < state.depth then
        pure (.inl { state with parts := .char c true :: state.parts, depth := state.depth - 1 })
      else if ← take? ')' then finish ()
      else literal
    | _ => literal

/-- Reads the parts of a word. -/
def readParts (r : WordReaders) (context : Context) : ReadM Word :=
  repeats (readPart r context) {}

/-! ## Documents -/

/-- Reads the lines of a document as they are. -/
def readLiteral : ReadM Word :=
  repeats (fun taken => do
    match ← next? with
    | some c =>
      let more ← if c = '\n' then startLine else pure []
      pure (.inl (more ++ Part.char c true :: taken))
    | none => pure (.inr taken.reverse)) []

/-- Reads the documents that are pending. -/
def readDocuments (r : WordReaders) : ReadM Unit := do
  let pending := (← get).pending
  modify fun state => { state with pending := [] }
  pending.forM fun d => do
    let outer ← get
    let depth := outer.depth + 1
    set { outer with
      document := some d, afterDocument := none, depth, deepest := max depth outer.deepest }
    let start ← startLine
    let lines ← if d.literal then readLiteral else r.parts .document
    let word := start.reverse ++ lines
    modify fun state =>
      { state with
        text := state.afterDocument.getD state.text
        document := outer.document, afterDocument := outer.afterDocument, depth := outer.depth
        found := (d.index, word) :: state.found }

/-! ## Tokens -/

/-- The keyword that a word is, or the word. -/
def Word.asKeyword (w : Word) : Token :=
  match Word.plain? w with
  | some text => if Token.keywords.contains text then .keyword text else .word w
  | none => .word w

/-- Reads what kind of redirection follows its first sign. -/
def readRedirection (sign : Char) : ReadM RedirectionKind := do
  if sign = '>' then
    if ← take? '>' then pure (.access .append)
    else if ← take? '|' then pure (.access .write)
    else if ← take? '&' then pure .duplicate
    else pure (.access .write)
  else if ← take? '<' then pure (.document (← take? '-'))
  else if ← take? '&' then pure .duplicate
  else if ← take? '>' then pure (.access .readWrite)
  else pure (.access .read)

/-- Reads a word, or a redirection that may have a digit in front. -/
def readWord (r : WordReaders) (context : Context) : ReadM Token := do
  let parts ← r.parts context
  let stream? : Option (Option Nat) :=
    match parts with
    | [] => some none
    | [.char c false] => (Raw.digit? 10 c).map some
    | _ => none
  match stream?, ← peek? with
  | some stream, some c =>
    if c = '<' ∨ c = '>' then
      let _ ← next?
      let kind ← readRedirection c
      pure (.redirection (stream.getD (if c = '<' then 0 else 1)) kind)
    else pure (.word parts)
  | _, _ => pure (.word parts)

/-- Reads the next token from the text. -/
def readFreshToken (r : WordReaders) (context : Context) : ReadM Token := do
  let _ ← takeWhile fun c => c = ' ' || c = '\t'
  if (← peek?) = some '#' then
    modify fun state => { state with text := state.text.dropWhile (· ≠ '\n') }
  let sign (text : String) : ReadM Token := pure (.sign text.toList)
  match ← peek? with
  | none => pure .endOfFile
  | some c =>
    if c = '<' ∨ c = '>' ∨ ¬isMeta c then readWord r context
    else
      let _ ← next?
      match c with
      | '\n' => pure .newline
      | '&' => if ← take? '&' then sign "&&" else sign "&"
      | '|' => if ← take? '|' then sign "||" else sign "|"
      | ';' => if ← take? ';' then sign ";;" else sign ";"
      | c => pure (.sign [c])

/-- Gives a token back, to be read again. -/
def putBack (t : Token) : ReadM Unit := modify fun state => { state with token := some t }

/-- Reads the next token: newlines may be skipped, and keywords told from other words. -/
def readToken (r : WordReaders) (newlines : Bool := false) (keywords : Bool := false)
    (context : Context := .bare) : ReadM Token := do
  let token ← repeats (fun (_ : Unit) => do
    let state ← get
    let token ←
      match state.token with
      | some token =>
        set { state with token := none }
        pure token
      | none => readFreshToken r context
    match token with
    | .newline =>
      if newlines then
        readDocuments r
        pure (.inl ())
      else pure (.inr token)
    | _ => pure (.inr token)) ()
  match token with
  | .word w => pure (if keywords then Word.asKeyword w else token)
  | _ => pure token

end KnightLang.Shell
