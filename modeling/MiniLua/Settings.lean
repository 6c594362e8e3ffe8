import MiniLua.FileSystem
import MiniLua.Machine.State
import MiniLua.Settings.Toml
import MiniLua.Text.Utf8

/-!
Settings: what a settings file says, what the command line says over it, and the defaults under
both.
-/

namespace MiniLua

/-- What a settings file says. -/
structure Config where
  scriptRoot : Option String := none
  maxCallDepth : Option Nat := none
  logLevel : Option String := none
deriving DecidableEq, Repr

namespace Config

inductive Section
  | runtime
  | log
deriving DecidableEq, Repr

def Section.ofName? : String → Option Section
  | "runtime" => some .runtime
  | "log" => some .log
  | _ => none

/-- Gives a setting its value, which must be of the right kind and the first. -/
def set? (c : Config) : Section → String → Toml.Value → Option Config
  | .runtime, "script_root", .text root =>
    if c.scriptRoot.isNone then some { c with scriptRoot := some root } else none
  | .runtime, "max_call_depth", .integer n =>
    if c.maxCallDepth.isNone && 0 ≤ n then some { c with maxCallDepth := some n.toNat } else none
  | .log, "level", .text level =>
    if c.logLevel.isNone then some { c with logLevel := some level } else none
  | _, _, _ => none

/-- Gives a whole section its value: named settings, or all of them in order. What follows them in
a list is ignored. -/
def setAll? (c : Config) : Section → Toml.Value → Option Config
  | s, .table entries =>
    entries.foldlM (fun c (key, v) ↦ match key with
      | [name] => c.set? s name v
      | _ => none) c
  | .runtime, .list (root :: depth :: _) =>
    (c.set? .runtime "script_root" root).bind fun c ↦ c.set? .runtime "max_call_depth" depth
  | .log, .list (level :: _) => c.set? .log "level" level
  | _, _ => none

/-- Settings read so far. A section whose settings were named by dotted keys is `spread`, one with
a header or a value of its own is `closed`; `current` is the section of the last header. -/
structure Draft where
  config : Config
  spread : List Section
  closed : List Section
  current : Option Section

def Draft.add? (d : Draft) : Toml.Statement → Option Draft
  | .header [name] => do
    let s ← Section.ofName? name
    if s ∈ d.closed || s ∈ d.spread then none
    else some { d with closed := s :: d.closed, current := some s }
  | .assign key v =>
    match d.current, key with
    | some s, [name] => do return { d with config := ← d.config.set? s name v }
    | none, [name] => do
      let s ← Section.ofName? name
      if s ∈ d.closed || s ∈ d.spread then none
      else return { d with config := ← d.config.setAll? s v, closed := s :: d.closed }
    | none, [outer, name] => do
      let s ← Section.ofName? outer
      if s ∈ d.closed then none
      else return { d with config := ← d.config.set? s name v, spread := s :: d.spread }
    | _, _ => none
  | _ => none

/-- The settings of a file's text. -/
def ofText? (text : String) : Option Config := do
  let draft ← (← Toml.parse text).foldlM Draft.add? ⟨{}, [], [], none⟩
  return draft.config

/-- The settings file that is read if no other is named. -/
def defaultFile : String := "lunette.toml"

def defaultLogLevel : String := "warn"

/-- What to log: the command line, then the file, then the default. -/
def effectiveLogLevel (c : Config) (flag : Option String) : String :=
  (flag <|> c.logLevel).getD defaultLogLevel

end Config

/-- Why there are no settings. -/
inductive ConfigError
  | unreadable (path reason : String)
  | invalid (path : String)

/-- A message and the cause behind it. -/
def ConfigError.chain : ConfigError → List String
  | unreadable path reason => ["cannot read '" ++ path ++ "'", reason]
  | invalid path => ["invalid toml in '" ++ path ++ "'"]

def ConfigError.message (e : ConfigError) : String := e.chain.headD ""

namespace Config

def ofBytes (path : String) (data : Bytes) : Except ConfigError Config :=
  match data.toText? with
  | none => .error (.unreadable path "stream did not contain valid UTF-8")
  | some text =>
    match ofText? text with
    | some c => .ok c
    | none => .error (.invalid path)

/-- The settings of the named file; without a name those of the default file, if there is one. -/
def discover {m : Type → Type} [Monad m] (files : Files m) (explicit : Option String) :
    m (Except ConfigError Config) := do
  let path := explicit.getD defaultFile
  match explicit, ← files.read path with
  | _, .ok data => return ofBytes path data
  | none, .error .notFound | none, .error .isDirectory => return .ok {}
  | _, .error e => return .error (.unreadable path e.message)

end Config

/-- What a run is made with. -/
structure RunSettings where
  scriptRoot : String
  options : Options

namespace RunSettings

/-- The directory of a script; the working directory if it has none or comes from standard
input. -/
def scriptDirectory (script : String) : String :=
  if script = "-" then "."
  else
    match Path.parent? script with
    | none | some "" => "."
    | some directory => directory

/-- The command line, then the file, then the script's own directory and the default limits. -/
def resolve (c : Config) (scriptRoot : Option String) (maxCallDepth : Option Nat)
    (script : String) : RunSettings where
  scriptRoot := (scriptRoot <|> c.scriptRoot).getD (scriptDirectory script)
  options :=
    match maxCallDepth <|> c.maxCallDepth with
    | some maxCallDepth => { maxCallDepth }
    | none => {}

end RunSettings

end MiniLua
