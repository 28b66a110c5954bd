import AccessLayer.Text.Bytes

/-!
# Faults of the file system

* `FileError`: an operation that failed on a path, and why.
-/

namespace AccessLayer

/-- Why the file system refuses an operation. -/
inductive FileFault where
  | notFound
  | notDirectory
  | isDirectory
  | notEmpty
  | nameTooLong
  | invalid
deriving DecidableEq, Repr

def FileFault.message : FileFault → Bytes
  | notFound => "no such file or directory"
  | notDirectory => "not a directory"
  | isDirectory => "is a directory"
  | notEmpty => "directory not empty"
  | nameTooLong => "file name too long"
  | invalid => "invalid argument"

/-- An operation that failed on a path. -/
structure FileError where
  op : Bytes
  path : Bytes
  fault : FileFault
deriving DecidableEq, Repr

def FileError.message (e : FileError) : Bytes :=
  e.op ++ " " ++ e.path ++ ": " ++ e.fault.message

end AccessLayer
