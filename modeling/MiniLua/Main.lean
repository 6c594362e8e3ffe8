import MiniLua.CommandLine
import MiniLua.Commands

/-! The program: the commands over real files and streams. -/

namespace MiniLua.Program

/-- A failure of the operating system, by its number, which may come negated. -/
def systemError (code : UInt32) (details : String) : FileError :=
  match (min code (0 - code)).toNat with
  | 2 => .notFound
  | 20 => .notDirectory
  | 21 => .isDirectory
  | 36 => .nameTooLong
  | n => .other (details.capitalize ++ " (os error " ++ toString n ++ ")")

def fileError : IO.Error → FileError
  | .noFileOrDirectory _ code details | .inappropriateType _ code details
  | .permissionDenied _ code details | .invalidArgument _ code details
  | .resourceExhausted _ code details | .alreadyExists _ code details
  | .noSuchThing _ code details | .interrupted _ code details | .otherError code details
  | .resourceBusy code details | .resourceVanished code details | .illegalOperation code details
  | .unsupportedOperation code details | .hardwareFault code details =>
    systemError code details
  | e => .other (toString e)

def disk : Files IO where
  read path := do
    match ← (IO.FS.readBinFile path).toBaseIO with
    | .ok data => return .ok data.data.toList
    | .error e => return .error (fileError e)
  write path bytes := do
    match ← (IO.FS.writeBinFile path ⟨bytes.toArray⟩).toBaseIO with
    | .ok _ => return .ok ()
    | .error e => return .error (fileError e)

partial def readInput : IO Bytes := do
  let input ← IO.getStdin
  let rec go (read : ByteArray) : IO ByteArray := do
    let piece ← input.read 65536
    if piece.isEmpty then return read else go (read ++ piece)
  return (← go .empty).data.toList

def writeBytes (bytes : Bytes) : IO Unit := do
  let output ← IO.getStdout
  output.write ⟨bytes.toArray⟩
  output.flush

/-- What was read so far of the files and the input that a script may ask for. -/
structure Known where
  root : String
  files : List (String × Except FileError Bytes)
  input : Option Bytes

namespace Known

/-- A host that knows these. What it does not know is empty, and no step that asked for it
counts. -/
def host (k : Known) : Host :=
  .rooted k.root (fun path ↦ (k.files.lookup path).getD (.ok [])) (k.input.getD [])

/-- The first source opened in a stretch of the run that was not known. -/
def missing? (k : Known) (h : Host) : Option Source :=
  h.events.reverse.findSome? fun
    | .opened (.resource name) =>
      if (k.files.lookup (Path.join k.root name)).isNone then some (.resource name) else none
    | .opened .input => if k.input.isNone then some .input else none
    | _ => none

end Known

/-- How many steps are made between looking after what was printed and asked for. -/
def stretch : Nat := 100000

/-- Runs to the end. A stretch that asked for something unknown is made again once that is
known. -/
partial def advance (natives : Array Native) (k : Known) (mode : Mode) (s : State) :
    IO (Except CommandError Unit) := do
  let after := run natives stretch mode s
  let state := match after with | .halted _ state | .running _ state => state
  match k.missing? state.host with
  | some (.resource name) =>
    let path := Path.join k.root name
    let k := { k with files := (path, ← disk.read path) :: k.files }
    advance natives k mode { s with host := { s.host with resource := k.host.resource } }
  | some _ =>
    let k := { k with input := some (← readInput) }
    advance natives k mode { s with host := { s.host with stdin := k.host.stdin } }
  | none =>
    writeBytes state.host.output
    match after with
    | .halted result state => return Commands.outcome result state
    | .running mode state =>
      let host := { state.host with printed := [], events := [] }
      advance natives k mode { state with host }

def runScript (settings : RunSettings) (path : String) : IO (Except CommandError Unit) := do
  let input ← if path = "-" then some <$> readInput else pure none
  let k : Known := ⟨settings.scriptRoot, [], input⟩
  match ← Commands.load disk settings k.host path with
  | .ok script => advance script.natives k (.enter script.main []) script.state
  | .error e => return .error e

def perform (config : Config) : CommandLine.Command → IO (Except CommandError Unit)
  | .run path scriptRoot maxCallDepth =>
    runScript (.resolve config scriptRoot maxCallDepth path) path
  | .compile path output => do
    match ← Commands.compile disk path output with
    | .ok out => return .ok (← writeBytes (Bytes.ofText (Commands.savedText out)))
    | .error e => return .error e
  | .disassemble path => do
    match ← Commands.listing disk path with
    | .ok text => return .ok (← writeBytes (Bytes.ofText text))
    | .error e => return .error e

/-- Shows a failure and the causes behind it. -/
def fail (chain : List String) : IO UInt32 := do
  IO.eprintln ("Error: " ++ chain.headD "")
  unless chain.tail.isEmpty do
    IO.eprintln ("\nCaused by:\n" ++ "\n".intercalate (chain.tail.map ("    " ++ ·)))
  return 1

end MiniLua.Program

open MiniLua MiniLua.Program in
def main (args : List String) : IO UInt32 := do
  match CommandLine.parse args with
  | .error .helpWanted =>
    IO.print CommandLine.usage
    return 0
  | .error e =>
    IO.eprint ("error: " ++ e.message ++ "\n\n" ++ CommandLine.usage)
    return 2
  | .ok request =>
    match ← Config.discover disk request.config with
    | .error e => fail e.chain
    | .ok config =>
      match ← perform config request.command with
      | .ok _ => return 0
      | .error e => fail e.chain
