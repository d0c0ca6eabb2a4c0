import Melody.Command.Task

/-!
# The program

Carries out the task of the command line on the files there are.
-/

namespace Melody

/-- Carries out a task: reads and writes files, prints, and gives the exit code. -/
def Task.perform : Task → IO UInt32
  | .done outcome => do
    IO.print outcome.stdout
    IO.eprint outcome.stderr
    return outcome.code
  | .read path next => do
    match ← (IO.FS.readBinFile path).toBaseIO with
    | .ok contents => (next (some contents.toList)).perform
    | .error _ => (next none).perform
  | .write path bytes next => do
    match ← (IO.FS.writeBinFile path ⟨bytes.toArray⟩).toBaseIO with
    | .ok _ => (next true).perform
    | .error _ => (next false).perform

end Melody

def main (args : List String) : IO UInt32 := (Melody.Command.task "notecraft" args).perform
