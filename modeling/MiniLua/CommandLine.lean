import MiniLua.Bytes

/-!
The command line: options that hold for every command, then a command with its own options and its
path. An option takes the next word or what is attached to it; after `--` every word is an
operand.
-/

namespace MiniLua.CommandLine

inductive Flag
  | config
  | logLevel
  | scriptRoot
  | maxCallDepth
  | output
  | help
deriving DecidableEq, Repr

inductive Verb
  | run
  | compile
  | disassemble
deriving DecidableEq, Repr

/-- What is to be done. -/
inductive Command
  | run (path : String) (scriptRoot : Option String) (maxCallDepth : Option Nat)
  | compile (path : String) (output : Option String)
  | disassemble (path : String)
deriving DecidableEq, Repr

structure Request where
  config : Option String
  logLevel : Option String
  command : Command
deriving DecidableEq, Repr

/-- Why a command line is not carried out. -/
inductive UsageError
  | helpWanted
  | nothingGiven
  | missingCommand
  | unknownCommand
  | unknownArgument
  | missingValue
  | badValue
  | unwantedValue
  | repeated
  | missingPath
deriving DecidableEq, Repr

def UsageError.message : UsageError → String
  | helpWanted => "help was asked for"
  | nothingGiven | missingCommand => "a command is missing"
  | unknownCommand => "there is no such command"
  | unknownArgument => "there is an argument that the command does not take"
  | missingValue => "an option lacks its value"
  | badValue => "the value of an option is not of its kind"
  | unwantedValue => "an option was given a value it does not take"
  | repeated => "an option was given twice"
  | missingPath => "a path is missing"

/-- What a user is told who asks for help. -/
def usage : String :=
  "Usage: [--config <file>] [--log-level <filter>] <command>\n\n" ++
  "Commands:\n" ++
  "  run <path> [--script-root <directory>] [--max-call-depth <count>]\n" ++
  "      Run a source file or binary chunk; - is standard input\n" ++
  "  compile <path> [-o, --output <file>]\n" ++
  "      Compile a source file to a binary chunk\n" ++
  "  disassemble <path>\n" ++
  "      Print the instructions of a source file or binary chunk\n" ++
  "  help\n" ++
  "      Print this text\n"

def Verb.ofName? : String → Option Verb
  | "run" => some .run
  | "compile" => some .compile
  | "disassemble" => some .disassemble
  | _ => none

/-- The word that asks for help on commands. -/
def helpWord : String := "help"

/-- An option by its long name, where it is allowed: before the command or after this one. -/
def Flag.ofName? (place : Option Verb) : String → Option Flag
  | "config" => some .config
  | "log-level" => some .logLevel
  | "help" => some .help
  | "script-root" => if place = some .run then some .scriptRoot else none
  | "max-call-depth" => if place = some .run then some .maxCallDepth else none
  | "output" => if place = some .compile then some .output else none
  | _ => none

def Flag.ofLetter? (place : Option Verb) : Char → Option Flag
  | 'h' => some .help
  | 'o' => if place = some .compile then some .output else none
  | _ => none

/-- What a word looks like. -/
inductive Word
  | divider
  | long (name : String) (attached : Option String)
  | short (letter : Char) (attached : Option String)
  | plain

/-- Of several letters the first decides; what follows it is its value, after an equals sign or
at once. -/
def Word.ofText (text : String) : Word :=
  match text.toList with
  | ['-', '-'] => .divider
  | '-' :: '-' :: rest =>
    let name := rest.takeWhile (· != '=')
    match rest.drop name.length with
    | [] => .long (String.ofList name) none
    | _ :: value => .long (String.ofList name) (some (String.ofList value))
  | '-' :: letter :: '=' :: value => .short letter (some (String.ofList value))
  | ['-', letter] => .short letter none
  | '-' :: letter :: value => .short letter (some (String.ofList value))
  | _ => .plain

/-- The words read so far, before the command or after it. `pending` is the last option, with its
value once that was read; it counts only when the next option, an operand or the end settles it. -/
structure Scan where
  place : Option Verb
  values : List (Flag × String) := []
  path : Option String := none
  pending : Option (Flag × Option String) := none
  divided : Bool := false

/-- A count of calls: decimal digits, after a plus sign if there is one, in 64 bits. -/
def count? (text : String) : Option Nat :=
  let digits := match text.toList with
    | '+' :: rest => rest
    | digits => digits
  if digits ≠ [] ∧ digits.all Char.isDigit then
    let n := digitsValue 10 (digits.map fun c ↦ c.toNat - '0'.toNat)
    if n < 0x10000000000000000 then some n else none
  else none

/-- Whether an option takes a text as its value. -/
def Flag.admit : Flag → String → Except UsageError Unit
  | .config, text | .scriptRoot, text => if text.isEmpty then throw .missingValue else return
  | .maxCallDepth, text => if (count? text).isNone then throw .badValue else return
  | _, _ => return

namespace Scan

def value? (s : Scan) (flag : Flag) : Option String := s.values.lookup flag

/-- Counts the pending option, which must have a value and be the first of its kind. -/
def settle (s : Scan) : Except UsageError Scan :=
  match s.pending with
  | none => return s
  | some (_, none) => throw .missingValue
  | some (flag, some text) => do
    if (s.value? flag).isSome then throw .repeated
    flag.admit text
    return { s with values := (flag, text) :: s.values, pending := none }

def awaitsValue (s : Scan) : Bool :=
  match s.pending with
  | some (_, none) => true
  | _ => false

/-- An option, with the value that is attached to it. -/
def option (s : Scan) (flag : Option Flag) (attached : Option String) : Except UsageError Scan := do
  let some flag := flag | throw .unknownArgument
  let s ← if flag = .help && attached.isSome then throw .unwantedValue else s.settle
  if flag = .help then throw .helpWanted
  let s := { s with pending := some (flag, attached) }
  if attached.isSome then s.settle else return s

/-- Short help takes no value, so what follows it does not matter. -/
def shortOption (s : Scan) (letter : Char) (attached : Option String) : Except UsageError Scan :=
  let flag := Flag.ofLetter? s.place letter
  s.option flag (if flag = some .help then none else attached)

/-- An operand after a command: its path. -/
def operand (s : Scan) (text : String) : Except UsageError Scan :=
  match s.path with
  | some _ => throw .unknownArgument
  | none => return { ← s.settle with path := some text }

/-- One word that is no command. -/
def word (s : Scan) (text : String) (operand : Except UsageError Scan) : Except UsageError Scan :=
  if s.divided then operand
  else
    match Word.ofText text with
    | .divider => return { s with divided := true }
    | .long name attached => s.option (Flag.ofName? s.place name) attached
    | .short letter attached => s.shortOption letter attached
    | .plain =>
      if s.awaitsValue then return { s with pending := s.pending.map fun (f, _) ↦ (f, some text) }
      else operand

/-- The words after a command. -/
def command (s : Scan) : List String → Except UsageError Scan
  | [] => do
    let s ← s.settle
    if s.path.isNone then throw .missingPath
    return s
  | text :: rest => do (← s.word text (s.operand text)).command rest

end Scan

/-- The command that the words after it spell out. -/
def Command.ofScan (verb : Verb) (s : Scan) : Command :=
  let path := s.path.getD ""
  match verb with
  | .run => .run path (s.value? .scriptRoot) ((s.value? .maxCallDepth).bind count?)
  | .compile => .compile path (s.value? .output)
  | .disassemble => .disassemble path

/-- The words after `help` name a command or nothing. -/
def helpOn : List String → UsageError
  | [] => .helpWanted
  | [name] => if name = helpWord || (Verb.ofName? name).isSome then .helpWanted else .unknownCommand
  | _ => .unknownCommand

/-- A word in the place of the command that is none. After a divider even a command is none. -/
def strayWord (s : Scan) (text : String) : UsageError :=
  if s.divided && (text = helpWord || (Verb.ofName? text).isSome) then .unknownArgument
  else .unknownCommand

/-- The words from the program's own options on. Options of the program count after a command as
well, and there they win. -/
def request (s : Scan) : List String → Except UsageError Request
  | [] => do
    let s ← s.settle
    throw (if s.values.isEmpty then .nothingGiven else .missingCommand)
  | text :: rest =>
    let isCommand := !s.divided && !s.awaitsValue
    match Verb.ofName? text with
    | some verb =>
      if isCommand then do
        let inner ← ({ place := some verb } : Scan).command rest
        let outer ← s.settle
        return {
          config := inner.value? .config <|> outer.value? .config
          logLevel := inner.value? .logLevel <|> outer.value? .logLevel
          command := .ofScan verb inner }
      else do request (← s.word text (throw (strayWord s text))) rest
    | none =>
      if isCommand && text = helpWord then throw (helpOn rest)
      else do request (← s.word text (throw (strayWord s text))) rest

/-- Reads the words of a command line. -/
def parse (words : List String) : Except UsageError Request := request { place := none } words

end MiniLua.CommandLine
