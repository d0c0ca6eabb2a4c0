import Melody.Command.FileSystem
import Melody.Command.Path
import Melody.Text.Fields

/-!
# A disk

A file system whose files stand in directories, with one name each. `Disk.fileSystem` makes it a parameter of
a run.

A path leads name by name from the top directory if it starts with a slash, else from the working directory
(`Disk.place?`). The empty name and `.` stay where they are, `..` leads one up and stays at the top, and every
other name but the last has to be that of a directory. A file can be written where another file stands, or
else in any directory there is.
-/

namespace Melody

/-- Where a file or a directory stands: the names that lead to it from the top directory. -/
abbrev Place := List String

/-- Contents of files by place, next to the directories. -/
structure Disk where
  /-- Where the paths start that do not start at the top. -/
  working : Place
  /-- All directories but the top, which is always there. -/
  directories : List Place
  files : List (Place × List UInt8)
deriving DecidableEq

namespace Disk

/-- Whether a directory stands at a place. -/
def hasDirectory (d : Disk) (place : Place) : Bool := place.isEmpty || d.directories.contains place

/-- The directory that a name leads to from another one. -/
def enter (d : Disk) (directory : Place) (name : String) : Option Place :=
  let inside := directory ++ [name]
  if name = "." then some directory
  else if name = ".." then some directory.dropLast
  else if d.hasDirectory inside then some inside
  else none

/-- How many bytes a file name can have. -/
def nameLimit : Nat := 255

/-- How many bytes a path can have, those included that lead nowhere. -/
def pathLimit : Nat := 4095

/-- Whether a file can have a name: it is not one of those that lead to a directory, and it is not too
long. -/
def isFileName (name : String) : Bool :=
  name != "" && name != "." && name != ".." && name.utf8ByteSize ≤ nameLimit

/-- The directory that a path starts from. -/
def start (d : Disk) (path : String) : Place :=
  if path.toList.head? = some '/' then [] else d.working

/-- The place of the file that a path names, whether it is there or not. No file stands where a directory
does. -/
def place? (d : Disk) (path : String) : Option Place :=
  let (way, name) := splitPath path.toList
  let name := String.ofList name
  if pathLimit < path.utf8ByteSize ∨ !isFileName name then none
  else do
    let directory ← ((Text.fields (· == '/') way).map String.ofList).foldlM d.enter (d.start path)
    let place := directory ++ [name]
    if d.hasDirectory place then none else some place

/-- The contents of the file that a path names. -/
def read (d : Disk) (path : String) : Option (List UInt8) := do
  d.files.lookup (← d.place? path)

/-- The disk with a file at a place, in place of the one that may be there. -/
def store (d : Disk) (place : Place) (bytes : List UInt8) : Disk :=
  { d with files := (place, bytes) :: d.files.filter (·.1 != place) }

/-- Writes a file where its path leads; where it leads nowhere, nothing happens. -/
def write (d : Disk) (path : String) (bytes : List UInt8) : Bool × Disk :=
  match d.place? path with
  | some place => (true, d.store place bytes)
  | none => (false, d)

/-- The file system of disks. Every file on one can be read. -/
def fileSystem : FileSystem where
  State := Disk
  contents := read
  SameFile d path other := (d.place? path).isSome = true ∧ d.place? other = d.place? path
  read := read
  write := write

end Disk

/-- Names that stay where they are make no difference. -/
example (d : Disk) : d.place? ".//./a.mid" = d.place? "a.mid" := by rfl

/-- A path may lead out of the working directory, and into a directory without files. -/
example : (Disk.mk ["home"] [["home"], ["out"]] []).place? "../out/b" = some ["out", "b"] ∧
    (Disk.mk ["home"] [["home"], ["out"]] []).place? "/out/b" = some ["out", "b"] ∧
    (Disk.mk ["home"] [["home"], ["out"]] []).place? "in/../b" = none ∧
    (Disk.mk ["home"] [["home"], ["out"]] []).place? "/out" = none := by
  decide +kernel

end Melody
