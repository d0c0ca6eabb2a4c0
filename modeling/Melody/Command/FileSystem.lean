/-!
# File systems

What a run can see of the files around it, and what it can do with them. Nothing is said here about how paths
lead to files, who may read them or what makes a write fail: a file system is a parameter of every run.

* **`FileSystem`** is the parameter: the states that files can be in, and reading and writing in such a state.
* **`FileSystem.WritesWhole`** is all that is asked of it: a write stores all of its bytes, or it fails and
  has no effect.
* **`FileSystem.Stores`** says of two states that they differ in one file.
-/

namespace Melody

/-- A file system. -/
structure FileSystem where
  /-- What all files hold at one moment, and whatever else decides what can be read and written. -/
  State : Type
  /-- The bytes of the file that a path names, also where they may not be read; none if there is no file. -/
  contents : State → String → Option (List UInt8)
  /-- Whether two paths name one file, which need not be there yet. -/
  SameFile : State → String → String → Prop
  /-- Reads the file that a path names; none if that fails. -/
  read : State → String → Option (List UInt8)
  /-- Writes a file, in place of the one that may be there: whether that worked, and the state afterwards. -/
  write : State → String → List UInt8 → Bool × State

namespace FileSystem

variable (fs : FileSystem)

/-- A write either stores all bytes or fails without effect. -/
structure WritesWhole : Prop where
  /-- A path that was written names a file. -/
  names {state : fs.State} {path : String} {bytes : List UInt8} (h : (fs.write state path bytes).1 = true) :
    fs.SameFile state path path
  /-- The bytes are found under every path that names this file. -/
  stores {state : fs.State} {path other : String} {bytes : List UInt8}
    (h : (fs.write state path bytes).1 = true) (hsame : fs.SameFile state path other) :
    fs.contents (fs.write state path bytes).2 other = some bytes
  /-- All other files are left alone. -/
  keeps {state : fs.State} {path other : String} {bytes : List UInt8}
    (h : (fs.write state path bytes).1 = true) (hother : ¬fs.SameFile state path other) :
    fs.contents (fs.write state path bytes).2 other = fs.contents state other
  /-- So are all files, if the write fails. -/
  fails {state : fs.State} {path : String} {bytes : List UInt8} (h : (fs.write state path bytes).1 = false) :
    fs.contents (fs.write state path bytes).2 = fs.contents state

/-- Two states that differ in one file: in the second it has some bytes. -/
structure Stores (before : fs.State) (path : String) (bytes : List UInt8) (after : fs.State) : Prop where
  file : fs.contents after path = some bytes
  /-- The same file under another name. -/
  same {other : String} (h : fs.SameFile before path other) : fs.contents after other = some bytes
  others {other : String} (h : ¬fs.SameFile before path other) :
    fs.contents after other = fs.contents before other

variable {fs}

/-- A write that works changes one file. -/
theorem WritesWhole.stores_write (hfs : fs.WritesWhole) {state : fs.State} {path : String} {bytes : List UInt8}
    (h : (fs.write state path bytes).1 = true) :
    fs.Stores state path bytes (fs.write state path bytes).2 where
  file := hfs.stores h (hfs.names h)
  same hsame := hfs.stores h hsame
  others hother := hfs.keeps h hother

end FileSystem

end Melody
