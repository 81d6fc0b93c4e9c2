/-
Expansion of words: parameters, outputs of commands and values of expressions take the place of
what names them. In a list of arguments the result is split into fields; elsewhere a word makes one
text. Words inside expansions and commands inside words are left to functions given for that.
-/
import KnightLang.Shell.Arithmetic
import KnightLang.Shell.Field
import KnightLang.Shell.Options

namespace KnightLang.Shell

open Text (Raw)
open ShellM

/-- How words are expanded. -/
structure Setting where
  /-- Whether the result is split into fields. -/
  fields : Bool := false
  /-- Whether the characters of the word itself are split. -/
  splits : Bool := false

/-- How what is inside words is expanded. -/
structure Expander where
  word : Setting → Word → ShellM (List Atom)
  /-- The text that a command prints. -/
  output : Option Command → ShellM Raw

/-! ## Parameters -/

/-- The separators between fields. -/
def separators : ShellM Raw := return (← value? "IFS".toList).getD defaultSeparators

/-- What stands between parameters that are joined. -/
def joiner : ShellM Raw := do
  match ← value? "IFS".toList with
  | none => pure [' ']
  | some s => pure (s.take 1)

/-- The value of a parameter as one text, if it has one. -/
def parameterText? (name : Raw) : ShellM (Option Raw) := do
  let p ← process
  match name with
  | ['@'] | ['*'] =>
    return some (Raw.join (← joiner) p.parameters)
  | ['#'] => pure (some (Raw.ofNat p.parameters.length))
  | ['?'] => pure (some (Raw.ofNat p.status))
  | ['-'] => pure (some (Options.letters p.options))
  | ['$'] => pure (some "1".toList)
  | ['!'] => pure none
  | _ =>
    match Raw.decimal? name with
    | some (0, _) => pure (some p.name)
    | some (n, _) => pure p.parameters[n - 1]?
    | none => value? name

/-- Whether a name stands for the parameters one by one and, if so, whether quotes keep each of them
whole. -/
def separately? (setting : Setting) (name : Raw) (quoted : Bool) : ShellM (Option Bool) := do
  if !setting.fields || (← process).parameters.isEmpty then pure none
  else if name = ['@'] ∨ (name = ['*'] ∧ ¬quoted) then pure (some quoted)
  else pure none

/-- The atoms of texts that are apart. -/
def separateAtoms (quoted : Bool) (texts : List Raw) : List Atom :=
  List.intercalate [.cut quoted] <| texts.map fun s =>
    (if quoted then [.mark] else []) ++ Atom.ofText quoted (!quoted) s

/-- The atoms of a parameter's value, if it has one. -/
def parameterAtoms? (setting : Setting) (name : Raw) (quoted : Bool) :
    ShellM (Option (List Atom)) := do
  match ← separately? setting name quoted with
  | some hard => return some (separateAtoms hard (← process).parameters)
  | none => return (← parameterText? name).map (Atom.ofText quoted (!quoted))

/-- The text of atoms that make one field. -/
def Atom.text (atoms : List Atom) : Raw := Glyph.text (Atom.glyphs atoms)

/-- Fails at a parameter without a value. -/
def notSet {α : Type} (name : Raw) : ShellM α := fail (name ++ ": parameter not set".toList)

/-- The atoms that a parameter stands for. -/
def expandParameter (x : Expander) (setting : Setting) (name : Raw) (usage : Usage Word)
    (quoted : Bool) : ShellM (List Atom) := do
  let strict ← hasOption "nounset"
  let missing (orEmpty : Bool) (text : Option Raw) : Bool :=
    match text with
    | none => true
    | some s => orEmpty && s.isEmpty
  let atoms : ShellM (List Atom) := return (← parameterAtoms? setting name quoted).getD []
  let inside : Setting := { setting with splits := !quoted }
  match usage with
  | .value =>
    match ← parameterAtoms? setting name quoted with
    | some atoms => pure atoms
    | none => if strict then notSet name else pure []
  | .length =>
    match ← parameterText? name with
    | some s => pure (Atom.ofText quoted (!quoted) (Raw.ofNat s.length))
    | none => if strict then notSet name else pure (Atom.ofText quoted (!quoted) ['0'])
  | .default orEmpty word =>
    if missing orEmpty (← parameterText? name) then x.word inside word else atoms
  | .alternative orEmpty word =>
    if missing orEmpty (← parameterText? name) then pure [] else x.word inside word
  | .assign orEmpty word =>
    if missing orEmpty (← parameterText? name) then
      let text := Atom.text (← x.word {} word)
      assign name text
      pure (Atom.ofText quoted (!quoted) text)
    else atoms
  | .require orEmpty word =>
    if missing orEmpty (← parameterText? name) then
      if word.isEmpty then
        let rest := if orEmpty then " or null" else ""
        fail (name ++ ": parameter not set".toList ++ rest.toList)
      else
        let text := Atom.text (← x.word {} word)
        fail (name ++ ": ".toList ++ text)
    else atoms
  | .trim side longest pattern =>
    match ← parameterText? name with
    | none => if strict then notSet name else pure []
    | some s =>
      let glyphs := Atom.glyphs (← x.word {} pattern)
      match ← separately? setting name quoted with
      | some hard =>
        let trim := match side with
          | .start => trimFirst
          | .finish => trimLast
        return separateAtoms hard (trim longest glyphs (← process).parameters)
      | none =>
        let trim := match side with
          | .start => trimStart
          | .finish => trimEnd
        pure (Atom.ofText quoted (!quoted) (trim longest glyphs s))
  | .unknown => fail "Bad substitution".toList

/-! ## Words -/

/-- The value of an arithmetic expression. -/
def expandArithmetic (expression : Raw) : ShellM Raw := do
  let bindings := (← process).bindings
  let lookup (name : Raw) : Raw := ((bindings.lookup name).bind Variable.value).getD []
  match Arithmetic.value lookup expression with
  | .ok (n, assigned) =>
    assigned.reverse.forM fun (name, n) => assign name (Raw.ofInt n.toInt)
    pure (Raw.ofInt n.toInt)
  | .error .overflow =>
    setStatus 136
    throw .killed
  | .error fault => fail (fault.message expression)

/-- The atoms of a part of a word. -/
def expandPart (x : Expander) (setting : Setting) : Part → ShellM (List Atom)
  | .char c quoted => pure [.glyph ⟨c, quoted⟩ (setting.splits && !quoted)]
  | .mark => pure [.mark]
  | .parameter name usage quoted => expandParameter x setting name usage quoted
  | .output command quoted => return Atom.ofText quoted (!quoted) (← x.output command)
  | .arithmetic expression quoted => do
    let text := Atom.text (← x.word {} expression)
    return Atom.ofText quoted (!quoted) (← expandArithmetic text)

/-- The atoms of a word after the given ones, last one first. The word of all parameters makes no
field if there are none. -/
def expandPartsAfter (x : Expander) (setting : Setting) (before : List Atom) :
    Word → ShellM (List Atom)
  | [] => pure before.reverse
  | .mark :: .parameter ['@'] .value quoted :: .mark :: rest => do
    let atoms ← expandParameter x setting ['@'] .value quoted
    expandPartsAfter x setting (atoms.reverseAux before) rest
  | part :: rest => do
    let atoms ← expandPart x setting part
    expandPartsAfter x setting (atoms.reverseAux before) rest

/-- The atoms of a word. -/
def expandParts (x : Expander) (setting : Setting) (w : Word) : ShellM (List Atom) :=
  expandPartsAfter x setting [] w

/-! ## Home directories -/

/-- Where in a word a tilde stands for a home directory. -/
inductive TildePlace
  | none
  /-- At the start. -/
  | start
  /-- After the sign of an assignment and after colons. -/
  | afterSigns
deriving DecidableEq

/-- The parts after a tilde up to the end of a user's name, if they are bare characters. -/
def userName? (endsAtColon : Bool) : Word → Option (Raw × Word)
  | [] => some ([], [])
  | .char c false :: rest =>
    if c = '/' ∨ (c = ':' ∧ endsAtColon) then some ([], .char c false :: rest)
    else (userName? endsAtColon rest).map fun (name, rest) => (c :: name, rest)
  | _ => .none

/-- The home directory of a user, if it is known. -/
def homeOf? (user : Raw) : ShellM (Option Raw) :=
  if user.isEmpty then value? "HOME".toList
  else pure (if user = "root".toList then some "/root".toList else .none)

/-- A word with its tildes replaced, after the given parts, last one first. `here` says whether a
tilde may stand at its start. -/
def expandTildesAfter (place : TildePlace) :
    (fuel : Nat) → (before : Word) → (here : Bool) → Word → ShellM Word
  | 0, before, _, w => pure (before.reverse ++ w)
  | _, before, _, [] => pure before.reverse
  | fuel + 1, before, here, part :: rest => do
    let home : Option (Raw × Word) ←
      match part with
      | .char '~' false =>
        match if here then userName? (place = .afterSigns) rest else .none with
        | some (user, after) => pure ((← homeOf? user).map fun home => (home, after))
        | none => pure .none
      | _ => pure .none
    match home with
    | some (home, after) =>
      let parts := home.map (Part.char · true)
      expandTildesAfter place fuel (parts.reverseAux before) false after
    | none =>
      let sign := match part with
        | .char c false => c = '=' || c = ':'
        | _ => false
      expandTildesAfter place fuel (part :: before) (sign && place = .afterSigns) rest

/-- A word with its tildes replaced. -/
def expandTildes (place : TildePlace) (w : Word) : ShellM Word :=
  let hasTilde := w.any fun part =>
    match part with
    | .char '~' false => true
    | _ => false
  if hasTilde then expandTildesAfter place (w.length + 1) [] (place = .start) w else pure w

/-! ## Texts and fields -/

/-- The glyphs of a word that makes one text. -/
def expandGlyphs (x : Expander) (setting : Setting) (place : TildePlace) (w : Word) :
    ShellM (List Glyph) := do
  let w ← expandTildes place w
  return Atom.glyphs (← expandParts x setting w)

/-- The text that a word makes. -/
def expandText (x : Expander) (place : TildePlace) (w : Word) : ShellM Raw :=
  return Glyph.text (← expandGlyphs x {} place w)

/-- The texts that a word makes in a list of arguments. -/
def expandFields (x : Expander) (w : Word) : ShellM (List Raw) := do
  let w ← expandTildes .start w
  let atoms ← expandParts x { fields := true } w
  let fields := splitFields (← separators) atoms
  if ← hasOption "noglob" then pure (fields.map Glyph.text)
  else
    let state ← get
    pure (fields.flatMap (expandPaths state.files state.process.directory))

/-- The texts that words make in a list of arguments. -/
def expandArguments (x : Expander) (ws : List Word) : ShellM (List Raw) :=
  return (← ws.mapM (expandFields x)).flatten

end KnightLang.Shell
