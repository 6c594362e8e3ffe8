import MiniLua.Bytes

/-!
The world outside the machine: named resources, standard input, and the sink for printed text.
What was printed and what became of every stream is recorded, the latest first.
-/

namespace MiniLua

/-- Where the bytes of a stream come from. -/
inductive Source
  | resource (name : String)
  | memory
  | input
deriving DecidableEq, Repr

/-- A stream of bytes. One with a read error fails after its last byte, one with a close error
when it is closed. -/
structure Stream where
  source : Source
  data : Bytes
  readError : Option String
  closeError : Option String

/-- Standard input is shared and never closed. -/
def Stream.isShared (s : Stream) : Bool := s.source == .input

inductive OpenError
  | notFound
  | other (reason : String)

/-- What was done with a stream. -/
inductive StreamEvent
  | opened (source : Source)
  | read (source : Source)
  | closed (source : Source)
deriving DecidableEq, Repr

structure Host where
  resource : String → Except OpenError Stream
  stdin : Stream
  /-- Whether standard input is used up by reading it. -/
  consumesInput : Bool
  printError : Option String
  printed : List Bytes
  events : List StreamEvent

namespace Host

/-- No resources and an empty input. -/
def empty : Host where
  resource _ := .error .notFound
  stdin := ⟨.input, [], none, none⟩
  consumesInput := false
  printError := none
  printed := []
  events := []

def note (h : Host) (event : StreamEvent) : Host := { h with events := event :: h.events }

/-- All bytes of a stream, and the failure that follows them if there is one. -/
def read (h : Host) (s : Stream) : Bytes × Option String × Host :=
  let h := h.note (.read s.source)
  let h :=
    if s.isShared && h.consumesInput then { h with stdin := { h.stdin with data := [] } } else h
  (s.data, s.readError, h)

/-- Closes a stream that is not shared. The failure, if there is one, comes after the close. -/
def close (h : Host) (s : Stream) : Option String × Host :=
  if s.isShared then (none, h) else (s.closeError, h.note (.closed s.source))

def print (h : Host) (line : Bytes) : Except String Host :=
  match h.printError with
  | some reason => .error reason
  | none => .ok { h with printed := line :: h.printed }

/-- All printed bytes, in order. -/
def output (h : Host) : Bytes := h.printed.reverse.flatten

/-- The resources that were closed, in order. -/
def closedResources (h : Host) : List String :=
  h.events.reverse.filterMap fun
    | .closed (.resource name) => some name
    | _ => none

end Host

end MiniLua
