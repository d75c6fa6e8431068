/-!
# Files

What the command line needs of a file system, and the failures of files.

* `FileError` : a failed operation on a path, with the reason;
* `Disk` : the operations, in any monad.
-/

namespace Kotlet

/-- Why an operation on a file fails. -/
inductive FileError.Reason where
  | noEntry | notDirectory | isDirectory | alreadyExists
  /-- A name or a path beyond the limits of the system. -/
  | nameTooLong
  /-- A path with a zero character. -/
  | invalidArgument
  /-- Anything else, in the words of the system. -/
  | other (text : String)
  deriving DecidableEq, Inhabited

/-- The words for a reason. -/
def FileError.Reason.text : FileError.Reason → String
  | noEntry => "no such file or directory"
  | notDirectory => "not a directory"
  | isDirectory => "is a directory"
  | alreadyExists => "file exists"
  | nameTooLong => "file name too long"
  | invalidArgument => "invalid argument"
  | other text => text

/-- A failed operation on a path. -/
structure FileError where
  /-- The operation. -/
  op : String
  /-- The path. -/
  path : String
  /-- The reason. -/
  reason : FileError.Reason
  deriving DecidableEq, Inhabited

/-- The message of a failed operation. -/
def FileError.message (e : FileError) : String := e.op ++ " " ++ e.path ++ ": " ++ e.reason.text

/-- A file system. -/
structure Disk (m : Type → Type) where
  /-- The contents of a file. -/
  read : String → m (Except FileError (Array UInt8))
  /-- Whether there is something at a path. -/
  stat : String → m (Except FileError Unit)
  /-- Makes a directory and those above it, unless they are there. -/
  makeDirs : String → m (Except FileError Unit)
  /-- Writes a file. -/
  write : String → Array UInt8 → m (Except FileError Unit)

end Kotlet
