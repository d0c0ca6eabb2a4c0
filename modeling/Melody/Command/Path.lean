/-!
# Paths as text

What is done with a path before any file is looked for: its last name is cut off, and the extension of that
name is exchanged for another one (`withExtension`).
-/

namespace Melody

/-- The characters behind the last slash, and the path up to and with it. -/
def splitPath (path : List Char) : List Char × List Char :=
  let name := (path.reverse.takeWhile (· != '/')).reverse
  (path.take (path.length - name.length), name)

/-- A file name up to its last dot. A dot in front of everything else starts no extension, and the two
names made of dots have none. -/
def stem (name : List Char) : List Char :=
  let behind := (name.reverse.takeWhile (· != '.')).reverse
  let front := name.take (name.length - behind.length)
  if name = ['.', '.'] then name
  else match front.dropLast with
    -- no dot at all, or one in front of everything else
    | [] => name
    | base => base

/-- The path with another extension, put on if it has none. A path without a file name stays. The old
extension goes before the new one comes, and where `..` is left of the name there is no file name any
more to put one on. -/
def withExtension (extension path : String) : String :=
  let (directory, name) := splitPath path.toList
  if name = [] ∨ name = ['.'] ∨ name = ['.', '.'] then path
  else if stem name = ['.'] then String.ofList (directory ++ ['.', '.'])
  else String.ofList (directory ++ stem name ++ '.' :: extension.toList)

example : withExtension "mid" "a.b.json" = "a.b.mid" ∧ withExtension "mid" ".json" = ".json.mid" ∧
    withExtension "mid" "dir.d/noext" = "dir.d/noext.mid" ∧ withExtension "mid" "..json" = ".." := by
  decide +kernel

end Melody
