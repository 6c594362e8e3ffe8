import MiniLua.FileSystem

/-!
Files held in memory. A place is the list of names that lead to it from the root; directories are
the places above files, and those above the working directory.
-/

namespace MiniLua

structure FileTree where
  files : List (List String × Bytes)
  workingDirectory : List String

namespace FileTree

inductive Entry
  | file (data : Bytes)
  | directory

def entry? (t : FileTree) (place : List String) : Option Entry :=
  match t.files.lookup place with
  | some data => some (.file data)
  | none =>
    let above := (t.workingDirectory :: t.files.map Prod.fst).any fun p ↦ place.isPrefixOf p
    if above then some .directory else none

def maxNameSize : Nat := 255

def maxPathSize : Nat := 4095

/-- Follows the parts of a path from a place. Every part but the last must lead to a directory. -/
def walk (t : FileTree) : List String → List String → Except FileError (List String)
  | place, [] => .ok place
  | place, part :: rest =>
    match t.entry? place with
    | none => .error .notFound
    | some (.file _) => .error .notDirectory
    | some .directory =>
      if part = "" || part = "." then t.walk place rest
      else if part = ".." then t.walk place.dropLast rest
      else if part.utf8ByteSize > maxNameSize then .error .nameTooLong
      else t.walk (place ++ [part]) rest

/-- The place a path starts from. -/
def origin (t : FileTree) (path : String) : List String :=
  if Path.isAbsolute path then [] else t.workingDirectory

/-- The parts of a path, which is not looked at any further if it is no path at all. -/
def split (path : String) : Except FileError (List String) :=
  if path.contains '\x00' then .error .nulInName
  else if path.isEmpty then .error .notFound
  else if path.utf8ByteSize > maxPathSize then .error .nameTooLong
  else .ok (path.splitOn "/")

def read (t : FileTree) (path : String) : Except FileError Bytes := do
  match t.entry? (← t.walk (t.origin path) (← split path)) with
  | some (.file data) => .ok data
  | some .directory => .error .isDirectory
  | none => .error .notFound

def put (t : FileTree) (place : List String) (data : Bytes) : FileTree :=
  { t with files := (place, data) :: t.files.filter fun (p, _) ↦ p != place }

/-- Puts a file where a path leads to. A path that ends in a slash names a directory. -/
def write (t : FileTree) (path : String) (data : Bytes) : Except FileError FileTree := do
  let parts ← split path
  match parts.reverse.dropWhile (· = "") with
  | [] => .error .isDirectory
  | last :: before =>
    let directory ← t.walk (t.origin path) (before.reverse ++ [""])
    if last = "." || last = ".." || path.endsWith "/" then .error .isDirectory
    else
      let place ← t.walk directory [last]
      match t.entry? place with
      | some .directory => .error .isDirectory
      | _ => .ok (t.put place data)

/-- Files in a directory, named by paths from there. -/
def ofList (workingDirectory : List String) (files : List (String × Bytes)) : FileTree where
  files := files.map fun (name, data) ↦ (workingDirectory ++ Path.parts name, data)
  workingDirectory

def access : Files (StateM FileTree) where
  read path := return (← get).read path
  write path data := do
    match (← get).write path data with
    | .ok t =>
      set t
      return .ok ()
    | .error e => return .error e

end FileTree

end MiniLua
