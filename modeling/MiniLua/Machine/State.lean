import MiniLua.Host
import MiniLua.Machine.Operators

/-!
The machine's state. Guest functions and builtins share one operand stack and one list of
activations; a builtin that called back into the machine waits there with a memo of what it was
doing.
-/

namespace MiniLua

structure Options where
  /-- How many activations there may be. -/
  maxCallDepth : Nat := 200
  /-- How many values may be pushed. -/
  maxStack : Nat := 1000000

/-- A function and a source line in it; zero if the line is unknown. -/
structure Location where
  function : String
  line : Nat
deriving DecidableEq, Repr

/-- A running guest function. `base` is the stack slot its callee was in; `cells` holds the cells
bound to its slots so far; `expected` is how many results the caller wants, if not all. -/
structure Frame where
  closure : Nat
  ip : Nat
  base : Nat
  cells : Array (Option Nat)
  varargs : List Value
  expected : Option Nat

/-- What a builtin remembers while a call it made runs. -/
inductive Memo
  | nothing
  | kept (stage : Nat) (values : List Value)
  /-- Source text a reader function has supplied so far, for a chunk of this name; the location is
  the one to report if the reader fails. -/
  | source (text : Bytes) (reader : Value) (chunkName : String) (location : Option Location)

/-- A running builtin. Its arguments lie from stack slot `base` on, and so do its results when it
ends. -/
structure NativeCall where
  native : Nat
  name : String
  base : Nat
  argCount : Nat
  expected : Option Nat
  memo : Memo

inductive Activation
  | guest (frame : Frame)
  | native (call : NativeCall)

/-- The slot of the callee. -/
def Activation.floor : Activation → Nat
  | guest frame => frame.base
  | native call => call.base - 1

/-- `activations` has the innermost first. `lastMulti` is the size of the last multi result, and
`location` the innermost place of the last error. -/
structure State where
  heap : Heap
  stack : Array Value
  activations : List Activation
  globals : Nat
  stringMethods : Nat
  host : Host
  compiles : Bool
  options : Options
  lastMulti : Nat
  location : Option Location

/-- Steps that may fail; the state survives a failure. -/
abbrev Machine := EStateM RuntimeError State

namespace State

/-- Empty globals and string methods, and nothing running. -/
def start (options : Options) (host : Host) (compiles : Bool) : State :=
  let (globals, heap) := Heap.empty.allocTable .empty
  let (stringMethods, heap) := heap.allocTable .empty
  ⟨heap, #[], [], globals, stringMethods, host, compiles, options, 0, none⟩

def frames (s : State) : List Frame :=
  s.activations.filterMap fun
    | .guest frame => some frame
    | .native _ => none

def nativeCalls (s : State) : List NativeCall :=
  s.activations.filterMap fun
    | .guest _ => none
    | .native call => some call

/-- The running builtin, the innermost of them. -/
def native? (s : State) : Option NativeCall :=
  s.activations.findSome? fun
    | .guest _ => none
    | .native call => some call

def truncate (s : State) (size : Nat) : State := { s with stack := s.stack.shrink size }

def proto? (s : State) (closure : Nat) : Option Prototype :=
  (s.heap.closures[closure]?).bind fun c ↦ s.heap.protos[c.proto]?

/-- Notes where the innermost guest function is, unless a place was noted before. -/
def noteLocation (s : State) : State :=
  match s.location, s.frames with
  | none, frame :: _ =>
    match s.proto? frame.closure with
    | some p => { s with location := some ⟨p.name, p.lines.getD (frame.ip - 1) 0⟩ }
    | none => s
  | _, _ => s

/-- The value of a global variable. -/
def global (s : State) (name : String) : Value :=
  match s.heap.strings.find? (Bytes.ofText name) with
  | some key => s.heap.rawGet (.table s.globals) (.string key)
  | none => .nil

end State

namespace Machine

def lift (r : Except RuntimeError α) : Machine α :=
  match r with
  | .ok a => return a
  | .error e => throw e

def typeError (fault : TypeFault) : Machine α := throw (.type fault)

def onHeap (f : Heap → α × Heap) : Machine α :=
  modifyGet fun s ↦
    let (a, heap) := f s.heap
    (a, { s with heap })

def changeHeap (f : Heap → Heap) : Machine Unit := modify fun s ↦ { s with heap := f s.heap }

/-- A string value of these bytes. -/
def bytesValue (bytes : Bytes) : Machine Value := do
  return .string (← onHeap fun h ↦ h.intern bytes)

def textValue (text : String) : Machine Value := bytesValue (Bytes.ofText text)

def newTable : Machine Value := do return .table (← onHeap fun h ↦ h.allocTable .empty)

/-- A closure of a prototype over the globals. -/
def newClosure (proto : Nat) : Machine Value := do
  let globals := (← get).globals
  return .closure (← onHeap fun h ↦ h.allocClosure ⟨proto, globals, #[]⟩)

def push (v : Value) : Machine Unit := do
  let s ← get
  if s.stack.size < s.options.maxStack then
    modify fun s ↦ { s with stack := s.stack.push v }
  else throw .stackOverflow

def pushAll (vs : List Value) : Machine Unit := vs.forM push

def top : Machine Value := do
  match (← get).stack.back? with
  | some v => return v
  | none => throw .operand

def pop : Machine Value := do
  let v ← top
  modify fun s ↦ { s with stack := s.stack.pop }
  return v

/-- Pops the top `n` values, the oldest first. -/
def popMany (n : Nat) : Machine (List Value) := do
  let size := (← get).stack.size
  if size < n then throw .operand
  let values := ((← get).stack.extract (size - n) size).toList
  modify fun s ↦ s.truncate (size - n)
  return values

/-- The entry of a table, or of the string methods for a string. -/
def index (object key : Value) : Machine Value := do
  let s ← get
  match object with
  | .table _ => return s.heap.rawGet object key
  | .string _ => return s.heap.rawGet (.table s.stringMethods) key
  | v => typeError (.index v.typeName)

def setIndex (object key value : Value) : Machine Unit := do
  match object with
  | .table t =>
    match Key.ofValue? key with
    | some k =>
      if t < (← get).heap.tables.size then changeHeap fun h ↦ h.modifyTable t (·.set k value)
      else throw .operand
    | none => typeError (if key.isNil then .nilKey else .nanKey)
  | v => typeError (.index v.typeName)

def setGlobal (name : String) (value : Value) : Machine Unit := do
  let key ← onHeap fun h ↦ h.intern (Bytes.ofText name)
  let globals := (← get).globals
  changeHeap fun h ↦ h.modifyTable globals (·.set (.string key) value)

end Machine

end MiniLua
