/-
Files as a program sees them: a tree of directories of which the standard ones are known, a working
directory, and the files in them. A path is followed name by name: `.` and empty names stay where
they are, `..` leads one directory up, and any other name must be looked up in a directory.
-/
namespace KnightLang

/-- Why a file cannot be reached. -/
inductive FileError
  | missing
  | isDirectory
  | notDirectory
  | nameTooLong
  /-- Some other reason, in the words of the system. -/
  | other (reason : String)
deriving DecidableEq

/-- The wording of a file error. -/
def FileError.message : FileError → String
  | missing => "No such file or directory (os error 2)"
  | isDirectory => "Is a directory (os error 21)"
  | notDirectory => "Not a directory (os error 20)"
  | nameTooLong => "File name too long (os error 36)"
  | other reason => reason

/-- A place in the tree: the names that lead to it from the root, the last one first. -/
abbrev Place := List String

/-- What stands at a place. -/
inductive Entry
  | directory
  | file (bytes : List UInt8)
deriving DecidableEq

/-- Files in a tree of directories, and the directory where relative paths start. -/
structure FileSystem where
  home : Place := ["work", "tmp"]
  files : List (Place × List UInt8) := []

namespace FileSystem

/-- The directories below the root that every file system has, with those below them. -/
def standardDirectories : List (String × List String) :=
  [("bin", []), ("boot", []), ("dev", ["fd", "mqueue", "pts", "shm"]),
    ("etc", ["alternatives", "apt", "default", "init.d", "opt", "security", "skel", "ssl"]),
    ("home", []), ("lib", []), ("lib64", []), ("media", []), ("mnt", []), ("opt", []),
    ("proc", ["self", "sys"]), ("root", []), ("run", ["lock"]), ("sbin", []), ("srv", []),
    ("sys", ["block", "bus", "class", "dev", "devices", "firmware", "fs", "kernel", "module"]),
    ("tmp", []),
    ("usr", ["bin", "games", "include", "lib", "lib64", "libexec", "local", "sbin", "share",
      "src"]),
    ("var", ["backups", "cache", "lib", "local", "lock", "log", "mail", "opt", "run", "spool",
      "tmp"])]

/-- Whether a place is a directory that every file system has. -/
def isStandard : Place → Bool
  | [] => true
  | [name] => (standardDirectories.lookup name).isSome
  | [name, top] => ((standardDirectories.lookup top).getD []).contains name
  | [name, "local", "usr"] =>
    ["bin", "etc", "games", "include", "lib", "man", "sbin", "share", "src"].contains name
  | _ => false

/-- The file that takes in everything and holds nothing. -/
def nullDevice : Place := ["null", "dev"]

/-- What stands at a place, if anything does. -/
def entry? (fs : FileSystem) (place : Place) : Option Entry :=
  if isStandard place || place.isSuffixOf fs.home then some .directory
  else if place = nullDevice then some (.file [])
  else (fs.files.lookup place).map .file

/-- Follows the names of a path from a place. Each of them must find a directory. -/
def follow (fs : FileSystem) (place : Place) : List String → Except FileError Place
  | [] => .ok place
  | name :: names =>
    match fs.entry? place with
    | none => .error .missing
    | some (.file _) => .error .notDirectory
    | some .directory =>
      if name = "" ∨ name = "." then follow fs place names
      else if name = ".." then follow fs place.tail names
      else if name.utf8ByteSize > 255 then .error .nameTooLong
      else follow fs (name :: place) names

/-- The place that a path leads to from a directory, whether or not anything stands there. -/
def locate (fs : FileSystem) (directory : Place) (path : String) : Except FileError Place :=
  if path = "" then .error .missing
  else if path.utf8ByteSize ≥ 4096 then .error .nameTooLong
  else fs.follow (if path.startsWith "/" then [] else directory) (path.splitOn "/")

/-- The bytes of the file at a path. -/
def readFrom (fs : FileSystem) (directory : Place) (path : String) :
    Except FileError (List UInt8) := do
  match fs.entry? (← fs.locate directory path) with
  | some (.file bytes) => .ok bytes
  | some .directory => .error .isDirectory
  | none => .error .missing

/-- The bytes of the file at a path from the working directory. -/
def read (fs : FileSystem) (path : String) : Except FileError (List UInt8) :=
  fs.readFrom fs.home path

/-- The files with the given bytes at a place. -/
def write (fs : FileSystem) (place : Place) (bytes : List UInt8) : FileSystem :=
  if place = nullDevice then fs
  else { fs with files := (place, bytes) :: fs.files.filter (·.1 ≠ place) }

/-- The names in a directory. -/
def names (fs : FileSystem) (directory : Place) : List String :=
  let standard :=
    match directory with
    | [] => standardDirectories.map Prod.fst
    | [name] => (standardDirectories.lookup name).getD []
    | _ => []
  let places := fs.home :: fs.files.map Prod.fst
  let added := places.filterMap fun place =>
    match place with
    | name :: parent => if parent = directory then some name else none
    | [] => none
  (standard ++ added).eraseDups

/-- A file system whose working directory holds the given files. -/
def ofFiles (files : List (String × List UInt8)) : FileSystem :=
  let home : Place := ["work", "tmp"]
  { home, files := files.map fun (name, bytes) => (name :: home, bytes) }

end FileSystem

end KnightLang
