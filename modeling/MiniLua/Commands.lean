import MiniLua.Chunk.Writer
import MiniLua.Code.Listing
import MiniLua.Library.Registry
import MiniLua.Settings

/-! What the commands do: run a script, compile it to a binary chunk, or list its instructions. -/

namespace MiniLua

/-- Why a command fails. -/
inductive CommandError
  | unreadable (path : String) (reason : FileError)
  | stdin (e : LoadError)
  | load (e : LoadError)
  | alreadyBinary (path : String)
  | uncreatable (path : String) (reason : FileError)
  | unwritable (path : String) (reason : WriteError)
  | library (e : RuntimeError)
  | failed (e : RuntimeError) (location : Option Location)

namespace CommandError

/-- A message and the causes behind it, the outermost first. -/
def chain : CommandError → List String
  | unreadable path reason => ["cannot read '" ++ path ++ "'", reason.message]
  | stdin e => ["cannot load standard input", e.message]
  | load e => [e.message]
  | alreadyBinary path => ["'" ++ path ++ "' is already a binary chunk"]
  | uncreatable path reason => ["cannot create '" ++ path ++ "'", reason.message]
  | unwritable path reason => ["cannot write '" ++ path ++ "'", reason.message]
  | library e => ["cannot install the base library", e.message]
  | failed e none => [e.message]
  | failed e (some l) =>
    [e.message ++ " (in " ++ l.function ++ ", line " ++ toString l.line ++ ")"]

def message (e : CommandError) : String := ": ".intercalate e.chain

end CommandError

namespace Commands

variable {m : Type → Type} [Monad m]

/-- A script's chunk is named after its path. -/
def chunkName (path : String) : String := "@" ++ path

def readScript (files : Files m) (path : String) : ExceptT CommandError m Bytes := do
  match ← files.read path with
  | .ok bytes => return bytes
  | .error reason => throw (.unreadable path reason)

/-- Where the binary chunk of a script goes unless another place is named. -/
def chunkPath (path : String) : String := Path.withExtension path "luac"

/-- Compiles a script into a file, the path of which is returned. -/
def compile (files : Files m) (path : String) (output : Option String) :
    ExceptT CommandError m String := do
  let source ← readScript files path
  if (binaryBody? source).isSome then throw (.alreadyBinary path)
  let out := output.getD (chunkPath path)
  match MiniLua.compile source (chunkName path) .empty with
  | .error e _ => throw (.load (.source (e.located (chunkName path))))
  | .ok main heap =>
    match writeChunk heap main with
    | .error reason => throw (.unwritable out reason)
    | .ok bytes =>
      match ← files.write out bytes with
      | .ok _ => return out
      | .error reason => throw (.uncreatable out reason)

/-- What is printed about a compiled script. -/
def savedText (out : String) : String := "Saved binary chunk to " ++ out ++ "\n"

/-- The instructions of a script or binary chunk, a line each. -/
def listing (files : Files m) (path : String) : ExceptT CommandError m String := do
  let bytes ← readScript files path
  match Loading.decode bytes (chunkName path) (.start {} .empty true) with
  | .ok main s => return Listing.text s.heap main
  | .error e _ => throw (.load e)

/-- A script that is ready to be called. -/
structure Script where
  natives : Array Native
  main : Value
  state : State

/-- The closure of a script's bytes. -/
def script (bytes : Bytes) (path : String) : Loading.Loader Value := do
  Loading.closureOf (← Loading.decode bytes (chunkName path))

def loaded (natives : Array Native) (wrap : LoadError → CommandError) :
    EStateM.Result LoadError State Value → Except CommandError Script
  | .ok main state => .ok ⟨natives, main, state⟩
  | .error e _ => .error (wrap e)

/-- Loads a script or binary chunk, or standard input for `-`, into a machine with the library. -/
def load (files : Files m) (settings : RunSettings) (host : Host) (path : String) :
    ExceptT CommandError m Script := do
  match Registry.install #[] (.start settings.options host true) with
  | .error e _ => throw (.library e)
  | .ok (_, natives) s =>
    if path = "-" then loaded natives .stdin (Loading.loadFile none s)
    else
      let bytes ← readScript files path
      loaded natives .load (script bytes path s)

/-- How the end of a script counts. -/
def outcome : Except RuntimeError (List Value) → State → Except CommandError Unit
  | .ok _, _ => .ok ()
  | .error e, s => .error (.failed e s.location)

/-- Runs a script to its end, and gives the machine then; nothing if `fuel` steps do not
suffice. -/
def Script.run? (s : Script) (fuel : Nat) : Option (Except CommandError Unit × State) :=
  match callValue s.natives fuel s.main [] s.state with
  | .halted result state => some (outcome result state, state)
  | .running _ _ => none

end Commands

end MiniLua
