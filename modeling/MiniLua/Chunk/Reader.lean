import MiniLua.Chunk.Format
import MiniLua.Chunk.LoadError
import MiniLua.Memory.Heap

/-!
Reading binary chunks. Counts and lengths have limits, so that a short chunk cannot ask for much
memory; what a reader added to the heap before a failure stays there.
-/

namespace MiniLua

namespace Binary

structure Source where
  heap : Heap
  rest : Bytes

abbrev Reader := EStateM LoadError Source

/-- The first `n` bytes, pushed onto `taken` in reverse, and the rest. -/
def splitOff? : Nat → Bytes → Bytes → Option (Bytes × Bytes)
  | 0, taken, rest => some (taken.reverse, rest)
  | _ + 1, _, [] => none
  | n + 1, taken, b :: rest => splitOff? n (b :: taken) rest

namespace Reader

def bad (fault : FormatFault) : Reader α := throw (.format fault)

def take (n : Nat) : Reader Bytes := do
  let s ← get
  match splitOff? n [] s.rest with
  | some (taken, rest) =>
    set { s with rest }
    return taken
  | none => bad .truncated

def number (bytes : Nat) : Reader Nat := return ofLittleEndian (← take bytes)

def byte : Reader UInt8 := return (← number 1).toUInt8

def string (limit : Nat) (what : String) : Reader Bytes := do
  let length ← number 4
  if limit < length then throw (.size (.length what limit length))
  take length

def count (limit : Nat) (what : String) : Reader Nat := do
  let n ← number 4
  if limit < n then throw (.size (.count what n))
  return n

/-- `n` items after those found, which are in reverse. -/
def many (item : Reader α) : Nat → List α → Reader (List α)
  | 0, found => return found.reverse
  | n + 1, found => do many item n ((← item) :: found)

def intern (s : Bytes) : Reader Nat :=
  modifyGet fun source ↦
    let (n, heap) := source.heap.intern s
    (n, { source with heap })

def allocProto (p : Prototype) : Reader Nat :=
  modifyGet fun source ↦
    let (n, heap) := source.heap.allocProto p
    (n, { source with heap })

def maxName : Nat := 1024
def maxString : Nat := 16 * 1024 * 1024
def maxConstants : Nat := 1000000
def maxCode : Nat := 1000000
def maxCaptures : Nat := 1024
def maxProtos : Nat := 100000

/-- How deep prototypes may nest below the main one. -/
def maxNesting : Nat := 200

def constant : Reader Value := do
  let tag ← byte
  if tag = tagNil then return .nil
  else if tag = tagFalse then return .bool false
  else if tag = tagTrue then return .bool true
  else if tag = tagInt then return .int (← number 8).toUInt64.toInt64
  else if tag = tagFloat then return .float (← number 8).toUInt64
  else if tag = tagString then return .string (← intern (← string maxString "string"))
  else bad (.constantTag tag)

def instruction : Reader Instruction := do
  let i := Instruction.ofNat (← number 4)
  if i.opcode?.isNone then bad (.opcode i.op)
  return i

def capture : Reader Capture := do
  let tag ← byte
  let n ← number 2
  if tag = tagCell then return .cell n
  else if tag = tagUpvalue then return .upvalue n
  else bad (.captureTag tag)

/-- The handle of a prototype, of which at most `depth` may nest in one another. -/
def proto : Nat → Reader Nat
  | 0 => throw (.size .nesting)
  | depth + 1 => do
    let name ←
      match Bytes.toText? (← string maxName "function name") with
      | some name => pure name
      | none => bad .nameNotText
    let arity := (← byte).toNat
    let variadic := (← byte) != 0
    let cellCount ← number 2
    if cellCount < arity then bad (.arity arity cellCount)
    let constants ← many constant (← count maxConstants "constant") []
    let codeCount ← count maxCode "bytecode"
    let code ← many instruction codeCount []
    let lineCount ← count maxCode "line info"
    if lineCount ≠ 0 ∧ lineCount ≠ codeCount then bad (.lineCount lineCount codeCount)
    let lines ← many (number 4) lineCount []
    let captures ← many capture (← count maxCaptures "upvalue") []
    let protos ← many (proto depth) (← count maxProtos "prototype") []
    allocProto {
      name, arity, variadic, cellCount
      code := code.toArray
      constants := constants.toArray
      protos := protos.toArray
      captures := captures.toArray
      lines := lines.toArray }

def main : Reader Nat := do
  let found ← byte
  if found ≠ version then bad (.version found)
  proto (maxNesting + 1)

end Reader

end Binary

open Binary

/-- The binary chunk after its signature, if `bytes` is one. -/
def binaryBody? (bytes : Bytes) : Option Bytes :=
  if signature.isPrefixOf bytes then some (bytes.drop signature.length) else none

/-- The handle of the main prototype of a binary chunk. -/
def readChunk (body : Bytes) : EStateM LoadError Heap Nat := fun heap ↦
  match Reader.main ⟨heap, body⟩ with
  | .ok proto s => .ok proto s.heap
  | .error e s => .error e s.heap

end MiniLua
