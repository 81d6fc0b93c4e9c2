/-
Formats: text with escapes and with directives, each of which takes the next argument. A format is
used again as long as it takes arguments and some are left; an argument that is missing counts as
empty. An argument that is no number counts as the number it starts with, with a warning.
-/
import KnightLang.Shell.Escape
import KnightLang.Text.RawNumeral

namespace KnightLang.Shell

open Text (Raw)
open Number (Binary64)

/-! ## Directives -/

/-- A width or precision. -/
inductive Measure
  | none
  | given (n : Nat)
  /-- Takes the next argument. -/
  | argument
deriving DecidableEq

/-- A directive of a format. -/
structure Directive where
  flags : Raw
  width : Measure
  precision : Measure
  conversion : Char
  /-- The whole directive as it is written. -/
  written : Raw

/-- A part of a format. -/
inductive FormatPart
  | char (c : Char)
  | directive (d : Directive)
  /-- A directive without its last character. -/
  | unfinished (width precision : Measure)

/-- Whether a character is a flag of directives. -/
def isFlag (c : Char) : Bool := ['#', '-', '+', ' ', '0'].contains c

/-- The width or precision that a text starts with, and what follows it. -/
def readMeasure (s : Raw) : Measure × Raw :=
  match s with
  | '*' :: rest => (.argument, rest)
  | _ =>
    match Raw.decimal? s with
    | some (n, rest) => (.given n, rest)
    | none => (.none, s)

/-- The directive that a text starts with after its percent sign, and what follows it. -/
def readDirective (s : Raw) : FormatPart × Raw :=
  let flags := s.takeWhile isFlag
  let (width, rest) := readMeasure (s.dropWhile isFlag)
  let (precision, rest) :=
    match rest with
    | '.' :: rest =>
      match readMeasure rest with
      | (.none, rest) => (.given 0, rest)
      | reading => reading
    | _ => (.none, rest)
  match rest with
  | [] => (.unfinished width precision, [])
  | c :: rest =>
    (.directive ⟨flags, width, precision, c, '%' :: s.take (s.length - rest.length)⟩, rest)

/-- The parts of a format, after the given ones, last one first. -/
def formatParts : (fuel : Nat) → (before : List FormatPart) → Raw → List FormatPart
  | 0, before, _ => before.reverse
  | _, before, [] => before.reverse
  | fuel + 1, before, '\\' :: s =>
    let (c, rest) := (formatEscape? s).getD ('\\', s)
    formatParts fuel (.char c :: before) rest
  | fuel + 1, before, '%' :: '%' :: s => formatParts fuel (.char '%' :: before) s
  | fuel + 1, before, '%' :: s =>
    let (part, rest) := readDirective s
    formatParts fuel (part :: before) rest
  | fuel + 1, before, c :: s => formatParts fuel (.char c :: before) s

/-! ## Printing -/

/-- What is printed so far. -/
structure Sheet where
  /-- The text, last character first. -/
  text : Raw := []
  /-- The warnings, last one first. -/
  warnings : List Raw := []
  /-- The arguments left. -/
  arguments : List Raw

/-- Why printing ends. -/
inductive PrintStop
  | ended
  | failed (message : Raw)

/-- A computation that prints. -/
abbrev PrintM := ExceptT PrintStop (StateM Sheet)

namespace PrintM

def write (s : Raw) : PrintM Unit :=
  modify fun sheet => { sheet with text := s.reverseAux sheet.text }

/-- Notes that something is wrong with an argument. -/
def warn (argument : Raw) (what : String) : PrintM Unit :=
  modify fun sheet =>
    { sheet with warnings := (argument ++ ": ".toList ++ what.toList) :: sheet.warnings }

/-- Takes the next argument, if there is one. -/
def nextArgument? : PrintM (Option Raw) := do
  let sheet ← get
  match sheet.arguments with
  | [] => pure none
  | argument :: arguments =>
    set { sheet with arguments }
    pure (some argument)

/-- Warns of what follows a number in an argument, and of a number out of range. -/
def checkRest (argument rest : Raw) (found inRange : Bool) : PrintM Unit :=
  if !rest.isEmpty then
    warn argument (if found then "not completely converted" else "expected numeric value")
  else if !inRange then warn argument "Numerical result out of range"
  else pure ()

/-- Takes an argument as a number: the code of what follows a quotation mark, or what a reading
makes of it. -/
def takeNumber {α : Type} (zero : α) (code : Nat → α)
    (reading : Raw → Option ((α × Bool) × Raw)) : PrintM α := do
  match ← nextArgument? with
  | none => pure zero
  | some ('\x22' :: s) | some ('\x27' :: s) => pure (code (s.headD (Char.ofNat 0)).toNat)
  | some argument =>
    match reading argument with
    | some ((n, inRange), rest) =>
      checkRest argument rest true inRange
      pure n
    | none =>
      checkRest argument argument false true
      pure zero

/-- Takes an argument as a number of 64 bits with a sign; other numbers count as the nearest. -/
def takeSigned : PrintM Int :=
  takeNumber 0 (fun n => (n : Int)) fun argument =>
    (Raw.signed? Raw.natural? argument).map fun (n, rest) =>
      let low := Int64.minValue.toInt
      let high := Int64.maxValue.toInt
      ((max low (min high n), low ≤ n && n ≤ high), rest)

/-- Takes an argument as a number of 64 bits without a sign: a negative number wraps, and one out of
range counts as the greatest. -/
def takeUnsigned : PrintM Nat :=
  takeNumber 0 id fun argument =>
    (Raw.signed? Raw.natural? argument).map fun (n, rest) =>
      let limit := 0x10000000000000000
      if n.natAbs < limit then (((n % (limit : Int)).toNat, true), rest)
      else ((limit - 1, false), rest)

/-- Takes an argument as a number with a point. -/
def takeReal : PrintM Binary64 :=
  takeNumber (.finite false 0 0) (fun n => (Binary64.ofFraction false n 1).1) fun argument =>
    (Raw.real? argument).map fun ((x, outOfRange), rest) => ((x, !outOfRange), rest)

/-- Takes an argument as a width or precision, a number of 32 bits. -/
def takeMeasure (m : Measure) : PrintM (Option Int) := do
  match m with
  | .none => pure none
  | .given n => pure (some n)
  | .argument => pure (some (Int.bmod (← takeSigned) 0x100000000))

end PrintM

open PrintM

/-- A text with blanks around it up to a width. -/
def padded (left : Bool) (width : Nat) (s : Raw) : Raw :=
  let blanks := List.replicate (width - s.length) ' '
  if left then s ++ blanks else blanks ++ s

/-- A number with its sign or mark in front, and zeros between them up to a width. -/
def zeroFilled (width : Nat) (mark digits : Raw) : Raw :=
  mark ++ List.replicate (width - mark.length - digits.length) '0' ++ digits

/-- The mark in front of a number that may have a sign. -/
def signMark (flags : Raw) (negative : Bool) : Raw :=
  if negative then ['-']
  else if flags.contains '+' then ['+']
  else if flags.contains ' ' then [' ']
  else []

/-- The text of a whole number: at least `precision` digits after a mark. -/
def wholeNumber (flags : Raw) (left : Bool) (width : Nat) (precision : Option Nat)
    (mark digits : Raw) : Raw :=
  match precision with
  | some p => padded left width (mark ++ List.replicate (p - digits.length) '0' ++ digits)
  | none =>
    if flags.contains '0' ∧ ¬left then zeroFilled width mark digits
    else padded left width (mark ++ digits)

/-- The digits of a number, none for zero with a precision of zero. -/
def digitsOf (base : Nat) (precision : Option Nat) (n : Nat) : Raw :=
  if n = 0 ∧ precision = some 0 then [] else Nat.toDigits base n

/-- The text of a number without a sign in the base that a conversion names. -/
def unsignedNumber (d : Directive) (left : Bool) (width : Nat) (precision : Option Nat) (n : Nat) :
    Raw :=
  let alternative := d.flags.contains '#'
  match d.conversion with
  | 'o' =>
    let digits := digitsOf 8 precision n
    let zeros := List.replicate (precision.getD 0 - digits.length) '0'
    let lead := alternative && zeros.isEmpty && digits.head? ≠ some '0'
    wholeNumber d.flags left width precision [] (if lead then '0' :: digits else digits)
  | 'x' =>
    let mark := if alternative ∧ n ≠ 0 then ['0', 'x'] else []
    wholeNumber d.flags left width precision mark (digitsOf 16 precision n)
  | 'X' =>
    let mark := if alternative ∧ n ≠ 0 then ['0', 'X'] else []
    wholeNumber d.flags left width precision mark (Raw.upper (digitsOf 16 precision n))
  | _ => wholeNumber d.flags left width precision [] (digitsOf 10 precision n)

/-- The text of a number with a point. -/
def realNumber (d : Directive) (left : Bool) (width : Nat) (precision : Option Nat)
    (x : Binary64) : Raw :=
  let alternative := d.flags.contains '#'
  let places := precision.getD 6
  let mark := signMark d.flags x.negative
  let text : Raw :=
    match x with
    | .infinite _ => padded left width (mark ++ "inf".toList)
    | .notANumber _ => padded left width (mark ++ "nan".toList)
    | .finite _ m e =>
      let filled (mark digits : Raw) : Raw :=
        if d.flags.contains '0' ∧ ¬left then zeroFilled width mark digits
        else padded left width (mark ++ digits)
      match Raw.lower [d.conversion] with
      | ['f'] => filled mark (Binary64.fixed places alternative m e)
      | ['e'] => filled mark (Binary64.scientific places alternative m e)
      | ['g'] => filled mark (Binary64.general places alternative m e)
      | _ =>
        let digits := Binary64.hexadecimal precision alternative m e
        filled (mark ++ digits.take 2) (digits.drop 2)
  if Raw.isUpper d.conversion then Raw.upper text else text

/-- The conversions of directives. -/
def conversions : Raw := "bcsdiouxXaAeEfFgG".toList

/-- Prints the next argument as a directive says. -/
def printDirective (d : Directive) : PrintM Unit := do
  let width ← takeMeasure d.width
  let precision ← takeMeasure d.precision
  unless conversions.contains d.conversion do
    throw (.failed (d.written ++ ": invalid directive".toList))
  if width.any (0x7FFFFFFF ≤ ·.natAbs) ∨ precision.any (0x7FFFFFFF ≤ ·) then
    throw (.failed "xvsnprintf failed".toList)
  let left := d.flags.contains '-' || width.any (· < 0)
  let width := (width.getD 0).natAbs
  let precision := (precision.filter (0 ≤ ·)).map Int.toNat
  let cut (s : Raw) : Raw :=
    match precision with
    | some p => s.take p
    | none => s
  match d.conversion with
  | 's' => write (padded left width (cut ((← nextArgument?).getD [])))
  | 'b' =>
    let (text, ends) := expandEscapes ((← nextArgument?).getD [])
    write (padded left width (cut text))
    if ends then throw .ended
  | 'c' => write (padded left width [((← nextArgument?).getD []).headD (Char.ofNat 0)])
  | 'd' | 'i' =>
    let n ← takeSigned
    let digits := digitsOf 10 precision n.natAbs
    write (wholeNumber d.flags left width precision (signMark d.flags (n < 0)) digits)
  | 'o' | 'u' | 'x' | 'X' => write (unsignedNumber d left width precision (← takeUnsigned))
  | _ => write (realNumber d left width precision (← takeReal))

/-- Prints a format once. -/
def printParts : List FormatPart → PrintM Unit
  | [] => pure ()
  | .char c :: parts => do
    write [c]
    printParts parts
  | .directive d :: parts => do
    printDirective d
    printParts parts
  | .unfinished width precision :: _ => do
    let _ ← takeMeasure width
    let _ ← takeMeasure precision
    throw (.failed "missing format character".toList)

/-- Prints a format again as long as it takes arguments and some are left, at most `rounds`
times. -/
def printRounds (parts : List FormatPart) : (rounds : Nat) → PrintM Unit
  | 0 => pure ()
  | rounds + 1 => do
    let before := (← get).arguments.length
    printParts parts
    let left := (← get).arguments.length
    if 0 < left ∧ left < before then printRounds parts rounds

/-- What a format prints with its arguments: the text, the warnings, and the fault that ended it if
one did. -/
def formatted (format : Raw) (arguments : List Raw) : Raw × List Raw × Option Raw :=
  let parts := formatParts (format.length + 1) [] format
  match (printRounds parts (arguments.length + 1)).run.run { arguments } with
  | (.error (.failed message), sheet) =>
    (sheet.text.reverse, sheet.warnings.reverse, some message)
  | (_, sheet) => (sheet.text.reverse, sheet.warnings.reverse, none)

end KnightLang.Shell
