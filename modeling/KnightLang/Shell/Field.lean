/-
Fields: what the words of a command become. The result of an expansion outside quotes is split at
the separators, and a field with wildcards stands for the files that it matches, if there are any.
-/
import KnightLang.Host.FileSystem
import KnightLang.Shell.Pattern

namespace KnightLang.Shell

open Text (Raw)

/-- A part of an expanded word. -/
inductive Atom
  /-- A character, and whether a separator ends the field at it. -/
  | glyph (g : Glyph) (splits : Bool)
  /-- A quotation mark; a field with one is there even if it is empty. -/
  | mark
  /-- The border between two parameters, which ends the field even if it is empty if `hard`. -/
  | cut (hard : Bool)
deriving DecidableEq

/-- The atoms of a text. -/
def Atom.ofText (quoted splits : Bool) (s : Raw) : List Atom :=
  s.map fun c => .glyph ⟨c, quoted⟩ splits

/-- The glyphs of atoms. -/
def Atom.glyphs (atoms : List Atom) : List Glyph :=
  atoms.filterMap fun atom =>
    match atom with
    | .glyph g _ => some g
    | _ => none

/-! ## Splitting -/

/-- The separators where nothing else is said. -/
def defaultSeparators : Raw := [' ', '\t', '\n']

/-- What the separators after a field may still belong to. -/
inductive Gap
  | none
  /-- Blanks ended the field; one more sign belongs to the same gap. -/
  | blanks
  /-- A sign ended the field; blanks after it belong to the same gap. -/
  | sign

/-- Fields while they are split. -/
structure Splitter where
  /-- The finished fields, last one first. -/
  finished : List (List Glyph) := []
  /-- The glyphs of the current field, last one first. -/
  current : List Glyph := []
  /-- Whether there is a current field. -/
  started : Bool := false
  gap : Gap := .none

namespace Splitter

/-- Ends the current field. -/
def cut (s : Splitter) (gap : Gap) : Splitter where
  finished := s.current.reverse :: s.finished
  gap

/-- A splitter after a blank that separates. -/
def blank (s : Splitter) : Splitter :=
  match s.gap with
  | .blanks | .sign => s
  | .none => if s.started then s.cut .blanks else s

/-- A splitter after a sign that separates. -/
def sign (s : Splitter) : Splitter :=
  match s.gap with
  | .blanks => { s with gap := .sign }
  | .sign | .none => s.cut .sign

/-- A splitter after one more atom. -/
def add (separators : Raw) (s : Splitter) : Atom → Splitter
  | .glyph g splits =>
    if splits ∧ separators.contains g.char then
      if defaultSeparators.contains g.char then s.blank else s.sign
    else { s with current := g :: s.current, started := true, gap := .none }
  | .mark => { s with started := true, gap := .none }
  | .cut hard => if hard then s.cut .none else s.blank

/-- All fields. -/
def fields (s : Splitter) : List (List Glyph) :=
  (if s.started then s.current.reverse :: s.finished else s.finished).reverse

end Splitter

/-- The fields of an expanded word. -/
def splitFields (separators : Raw) (atoms : List Atom) : List (List Glyph) :=
  (atoms.foldl (Splitter.add separators) {}).fields

/-! ## Names of files -/

/-- The parts of glyphs between their slashes. -/
def pathParts (glyphs : List Glyph) : List (List Glyph) :=
  glyphs.foldr (fun g parts =>
    if g.char = '/' then [] :: parts
    else
      match parts with
      | part :: parts => (g :: part) :: parts
      | [] => [[g]]) [[]]

/-- The names in a directory that glyphs match. A dot at the start is matched by a dot only. -/
def matchingNames (fs : FileSystem) (directory : Place) (part : List Glyph) : List Raw :=
  let names := if fs.entry? directory = some .directory then
    [['.'], ['.', '.']] ++ (fs.names directory).map Raw.ofString
  else []
  names.filter fun name =>
    (name.head? ≠ some '.' || (part.head?.map Glyph.char) = some '.') && matchesPattern part name

/-- The place one name further on. -/
def placeOf (directory : Place) (name : Raw) : Place :=
  if name = [] ∨ name = ['.'] then directory
  else if name = ['.', '.'] then directory.tail
  else Raw.decode name :: directory

/-- The paths that the parts of a pattern match, given the path to a directory and its place. -/
def matchingPaths (fs : FileSystem) (path : Raw) (directory : Place) :
    List (List Glyph) → List Raw
  | [] => []
  | [part] =>
    if part.isEmpty then
      if fs.entry? directory = some .directory then [path] else []
    else if hasWildcard part then
      (matchingNames fs directory part).map (path ++ ·)
    else
      let name := Glyph.text part
      if (fs.entry? (placeOf directory name)).isSome then [path ++ name] else []
  | part :: parts =>
    if hasWildcard part then
      (matchingNames fs directory part).flatMap fun name =>
        let place := placeOf directory name
        if fs.entry? place = some .directory then
          matchingPaths fs (path ++ name ++ ['/']) place parts
        else []
    else
      let name := Glyph.text part
      matchingPaths fs (path ++ name ++ ['/']) (placeOf directory name) parts

/-- What a field stands for: the paths that it matches in byte order, or itself. -/
def expandPaths (fs : FileSystem) (directory : Place) (field : List Glyph) : List Raw :=
  if hasWildcard field then
    let parts := pathParts field
    let start : Place := if field.head?.map Glyph.char = some '/' then [] else directory
    match (matchingPaths fs [] start parts).mergeSort Raw.notAfter with
    | [] => [Glyph.text field]
    | paths => paths
  else [Glyph.text field]

end KnightLang.Shell
