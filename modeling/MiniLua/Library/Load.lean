import MiniLua.Machine.Loading

/-! The builtins that load chunks. All but `dofile` report a failure as nil and a message. -/

namespace MiniLua.Library

open Machine Loading

/-- An optional text argument. -/
def textArg? (i : Nat) : Machine (Option String) := do
  if (← arg i).isNil then return none
  return some (← argBytes i).toTextLossy

/-- Returns what was loaded, or nil and a message. -/
def report : Except LoadError Value → Machine Unit
  | .ok closure => setResults [closure]
  | .error e => do setResults [.nil, ← textValue e.message]

def loadfile : Native :=
  .plain "loadfile" do report (← attempt (loadFile (← textArg? 0)))

/-- Runs what it loads. -/
def dofile : Native where
  name := "dofile"
  start := do
    match ← attempt (loadFile (← textArg? 0)) with
    | .ok closure => return .invoke closure [] .nothing
    | .error (.notFound name) => throw (← raise (← textValue ("file not found: " ++ name)))
    | .error e => throw (← raise (← textValue e.message))
  resume _ result := do
    setResults (← lift result)
    return .finished

def loadstring : Native :=
  .plain "loadstring" do
    let source ← argBytes 0
    let chunkName := (← textArg? 1).getD source.toTextLossy
    report (← attempt (loadBytes source chunkName))

/-- The chunk name of text from a reader function. -/
def readerChunk : String := "=(load)"

/-- Asks the reader for the next piece after `text`. -/
def askReader (reader : Value) (chunkName : String) (text : Bytes) : Machine Outcome := do
  return .invoke reader [] (.source text reader chunkName (← get).location)

def load : Native where
  name := "load"
  start := do
    let reader ← arg 0
    unless reader.isCallable do typeError (.notFunction ((← get).heap.toText reader))
    askReader reader ((← textArg? 1).getD readerChunk) []
  resume
    | .source text reader chunkName location, result => do
      match result with
      | .error e =>
        modify fun s ↦ { s with location }
        report (.error (.reader e.message))
        return .finished
      | .ok results =>
        match piece? (← get).heap results with
        | some piece => askReader reader chunkName (text ++ piece)
        | none =>
          report (← attempt (loadBytes text chunkName))
          return .finished
    | _, _ => return .finished

end MiniLua.Library
