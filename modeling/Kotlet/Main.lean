import Kotlet.Command

/-!
# The executable

The command line on the files of the machine.

* `realDisk` : the file system;
* `main` : runs a command and passes on its output and exit code.
-/

namespace Kotlet

/-- The reason behind a failure of the system. -/
def reasonOf : IO.Error → FileError.Reason
  | .noFileOrDirectory .. => .noEntry
  | .inappropriateType .. => .isDirectory
  | .alreadyExists .. => .alreadyExists
  | e => .other (toString e)

/-- Runs an action and names its failure. -/
def attempt {α : Type} (op path : String) (action : IO α) : IO (Except FileError α) := do
  try
    return .ok (← action)
  catch e =>
    return .error ⟨op, path, reasonOf e⟩

/-- The file system. -/
def realDisk : Disk IO where
  read path := attempt "open" path do return (← IO.FS.readBinFile path).data
  stat path := attempt "stat" path do
    let _ ← IO.FS.Handle.mk path .read
  makeDirs path := attempt "mkdir" path (IO.FS.createDirAll path)
  write path data := attempt "open" path (IO.FS.writeBinFile path ⟨data⟩)

end Kotlet

/-- Runs a command and passes on its output and exit code. -/
def main (args : List String) : IO UInt32 := do
  let outcome ← Kotlet.Command.main Kotlet.realDisk args
  (← IO.getStdout).putStr outcome.stdout
  (← IO.getStderr).putStr outcome.stderr
  return outcome.code
