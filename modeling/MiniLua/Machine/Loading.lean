import MiniLua.Chunk.Reader
import MiniLua.Code.Compile
import MiniLua.Machine.Step

/-!
Loading chunks into a machine: from bytes, from streams, and from reader functions that supply the
text piece by piece. A stream that was opened is closed whatever becomes of its content.
-/

namespace MiniLua.Loading

abbrev Loader := EStateM LoadError State

/-- The main prototype of a binary chunk or of source text. -/
def decode (bytes : Bytes) (chunkName : String) : Loader Nat := fun s ↦
  match binaryBody? bytes with
  | some body =>
    match readChunk body s.heap with
    | .ok main heap => .ok main { s with heap }
    | .error e heap => .error e { s with heap }
  | none =>
    if s.compiles then
      match compile bytes chunkName s.heap with
      | .ok main heap => .ok main { s with heap }
      | .error e heap => .error (.source (e.located chunkName)) { s with heap }
    else .error .noCompiler s

/-- A closure of a prototype over the globals. -/
def closureOf (proto : Nat) : Loader Value :=
  modifyGet fun s ↦
    let (c, heap) := s.heap.allocClosure ⟨proto, s.globals, #[]⟩
    (.closure c, { s with heap })

/-- Notes an event of a stream. -/
def note (event : StreamEvent) : Loader Unit :=
  modify fun s ↦ { s with host := s.host.note event }

/-- All bytes of a stream. -/
def drain (stream : Stream) (chunkName : String) : Loader Bytes := fun s ↦
  match s.host.read stream with
  | (bytes, none, host) => .ok bytes { s with host }
  | (_, some reason, host) => .error (.unreadable (chunkLabel chunkName) reason) { s with host }

/-- Closes a stream. Nothing is left to be done if that fails. -/
def release (stream : Stream) (s : State) : State :=
  { s with host := (s.host.close stream).2 }

/-- Loads a chunk from an open stream and closes the stream. -/
def loadStream (stream : Stream) (chunkName : String) : Loader Value := fun s ↦
  match (do decode (← drain stream chunkName) chunkName : Loader Nat) s with
  | .ok main s => closureOf main (release stream s)
  | .error e s => .error e (release stream s)

/-- Loads a chunk held in memory. -/
def loadBytes (bytes : Bytes) (chunkName : String) : Loader Value := do
  note (.opened .memory)
  loadStream ⟨.memory, bytes, none, none⟩ chunkName

/-- The chunk name of standard input. -/
def stdinChunk : String := "=stdin"

/-- Opens a named resource, or standard input without a name. -/
def openStream (name : Option String) : Loader Stream := do
  let host := (← get).host
  match name with
  | none =>
    note (.opened .input)
    return host.stdin
  | some name =>
    match host.resource name with
    | .ok stream => do
      note (.opened stream.source)
      return stream
    | .error .notFound => throw (.notFound name)
    | .error (.other reason) => throw (.unreadable name reason)

def loadFile (name : Option String) : Loader Value := do
  loadStream (← openStream name) ((name.map ("@" ++ ·)).getD stdinChunk)

/-- The next piece of source text in what a reader returned; none at the end of the text. -/
def piece? (h : Heap) (results : List Value) : Option Bytes :=
  match results.head?.bind h.stringOf? with
  | some (b :: bytes) => some (b :: bytes)
  | _ => none

/-- Runs a loader whose failure is a result. -/
def attempt (loader : Loader α) : Machine (Except LoadError α) := fun s ↦
  match loader s with
  | .ok a s => .ok (.ok a) s
  | .error e s => .ok (.error e) s

/-- Loads from a reader that the host calls, appending to `text`; none if the steps do not suffice.
A failure of the reader leaves the noted location as it was before. -/
def loadFrom (natives : Array Native) (fuel : Nat) (reader : Value) (chunkName : String) :
    Nat → Bytes → State → Option (Except LoadError Value × State)
  | 0, _, _ => none
  | rounds + 1, text, s =>
    match callValue natives fuel reader [] s with
    | .running _ _ => none
    | .halted (.error e) after =>
      some (.error (.reader e.message), { after with location := s.location })
    | .halted (.ok results) s =>
      match piece? s.heap results with
      | some piece => loadFrom natives fuel reader chunkName rounds (text ++ piece) s
      | none =>
        match loadBytes text chunkName s with
        | .ok v s => some (.ok v, s)
        | .error e s => some (.error e, s)

end MiniLua.Loading
