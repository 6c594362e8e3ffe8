import MiniLua.FileSystem.Path
import MiniLua.Host

/-! Access to files by path, and the host that finds its resources among them. -/

namespace MiniLua

/-- Why a file cannot be read or created. -/
inductive FileError
  | notFound
  | notDirectory
  | isDirectory
  | nameTooLong
  | nulInName
  | other (reason : String)
deriving DecidableEq, Repr

def FileError.message : FileError → String
  | notFound => "No such file or directory (os error 2)"
  | notDirectory => "Not a directory (os error 20)"
  | isDirectory => "Is a directory (os error 21)"
  | nameTooLong => "File name too long (os error 36)"
  | nulInName => "file name contained an unexpected NUL byte"
  | other reason => reason

/-- How a program gets at files. -/
structure Files (m : Type → Type) where
  read : String → m (Except FileError Bytes)
  write : String → Bytes → m (Except FileError Unit)

/-- A host whose resources are files below `root`. A directory can be opened, but not read. -/
def Host.rooted (root : String) (read : String → Except FileError Bytes) (stdin : Bytes) : Host :=
  let resource (name : String) : Except OpenError Stream :=
    match read (Path.join root name) with
    | .ok data => .ok ⟨.resource name, data, none, none⟩
    | .error .notFound => .error .notFound
    | .error .isDirectory => .ok ⟨.resource name, [], some FileError.isDirectory.message, none⟩
    | .error e => .error (.other e.message)
  { Host.empty with resource, stdin := ⟨.input, stdin, none, none⟩, consumesInput := true }

end MiniLua
