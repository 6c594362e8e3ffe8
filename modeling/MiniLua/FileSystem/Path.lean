/-! Paths as texts: parts divided by slashes. No file system is looked at. -/

namespace MiniLua.Path

def isAbsolute (path : String) : Bool := path.startsWith "/"

/-- A path seen from a directory. -/
def join (directory path : String) : String :=
  if isAbsolute path then path
  else if directory.isEmpty || directory.endsWith "/" then directory ++ path
  else directory ++ "/" ++ path

/-- The start of a path that names no entry: the root, or the working directory if it is written
out. -/
def anchor (path : String) : String :=
  if isAbsolute path then "/" else if path = "." || path.startsWith "./" then "." else ""

/-- Without the last parts that lead nowhere. -/
def trimmed (parts : List String) : List String :=
  (parts.reverse.dropWhile fun part ↦ part = "" || part = ".").reverse

/-- The parts that lead somewhere, after the anchor. -/
def parts (path : String) : List String :=
  trimmed ((String.ofList (path.toList.drop (anchor path).length)).splitOn "/")

/-- The directory that holds what a path names; empty if the path does not tell it, and nothing if
the path names the root or is empty. -/
def parent? (path : String) : Option String :=
  match parts path with
  | [] => if anchor path = "." then some "" else none
  | names => some (anchor path ++ "/".intercalate (trimmed names.dropLast))

/-- A file name without its last extension. A dot that starts the name starts no extension. -/
def stem (name : String) : String :=
  match (name.toList.reverse.dropWhile (· != '.')).reverse.dropLast with
  | [] => name
  | shorter => if name = ".." then name else String.ofList shorter

/-- The path with another extension in the place of the last one. -/
def withExtension (path extension : String) : String :=
  match (parts path).getLast? with
  | none | some ".." => path
  | some name =>
    anchor path ++ "/".intercalate ((parts path).dropLast ++ [stem name]) ++ "." ++ extension

end MiniLua.Path
