import MiniLua.Code.CompileError
import MiniLua.Memory.Heap

namespace MiniLua

/-- A local variable in scope: the nesting depth of its scope and the cell slot it lives in. -/
structure Local where
  name : String
  depth : Nat
  cell : Nat

/-- A function under construction. Locals and loops are listed innermost first; a loop is the list
of jumps that leave it, last first. -/
structure Builder where
  name : String
  arity : Nat
  variadic : Bool
  locals : List Local
  depth : Nat
  code : Array Instruction
  lines : Array Nat
  constants : Array Value
  captures : Array Capture
  protos : Array Nat
  loops : List (List Nat)
  nextCell : Nat
  cellCount : Nat
  line : Nat

namespace Builder

/-- Cell slots and upvalues are numbered by 16 bits. -/
def maxIndex : Nat := 65535

/-- Parameters take the first cells. -/
def start (name : String) (params : List String) (variadic : Bool) (line : Nat) : Builder where
  name
  arity := params.length
  variadic
  locals := (params.zipIdx.map fun (p, i) ↦ ⟨p, 0, i⟩).reverse
  depth := 0
  code := #[]
  lines := #[]
  constants := #[]
  captures := #[]
  protos := #[]
  loops := []
  nextCell := params.length
  cellCount := params.length
  line

def here (b : Builder) : Nat := b.code.size

def emit (b : Builder) (i : Instruction) : Builder :=
  { b with code := b.code.push i, lines := b.lines.push b.line }

/-- Sets the wide operand of an instruction. -/
def patch (b : Builder) (at_ target : Nat) : Builder :=
  { b with code := b.code.modify at_ fun i ↦ .wide i.op target }

def fail (b : Builder) (fault : CompileFault) : Except CompileError α :=
  .error (.code fault b.line)

/-- Constants are shared only if they are the same value, floats in every bit. -/
def addConstant (b : Builder) (v : Value) : Except CompileError (Nat × Builder) :=
  match b.constants.findIdx? (· == v) with
  | some i => .ok (i, b)
  | none =>
    if b.constants.size < Instruction.wideLimit then
      .ok (b.constants.size, { b with constants := b.constants.push v })
    else b.fail .tooManyConstants

def addCapture (b : Builder) (capture : Capture) : Except CompileError (Nat × Builder) :=
  match b.captures.findIdx? (· == capture) with
  | some i => .ok (i, b)
  | none =>
    if b.captures.size < maxIndex then
      .ok (b.captures.size, { b with captures := b.captures.push capture })
    else b.fail .tooManyUpvalues

/-- Binds a name to a fresh cell; visible from now on. -/
def declare (b : Builder) (name : String) : Except CompileError (Nat × Builder) :=
  if b.nextCell < maxIndex then
    .ok (b.nextCell, { b with
      locals := ⟨name, b.depth, b.nextCell⟩ :: b.locals
      nextCell := b.nextCell + 1
      cellCount := max b.cellCount (b.nextCell + 1) })
  else b.fail .tooManyLocals

def resolve? (b : Builder) (name : String) : Option Nat :=
  (b.locals.find? fun l ↦ l.name == name).map Local.cell

def openScope (b : Builder) : Builder := { b with depth := b.depth + 1 }

/-- Forgets the locals of the innermost scope; their cells are handed out again. -/
def closeScope (b : Builder) : Builder :=
  let depth := b.depth - 1
  let closed := b.locals.takeWhile fun l ↦ depth < l.depth
  { b with
    depth
    locals := b.locals.dropWhile fun l ↦ depth < l.depth
    nextCell := closed.foldl (fun cell l ↦ min cell l.cell) b.nextCell }

def toPrototype (b : Builder) : Prototype where
  name := b.name
  arity := b.arity
  variadic := b.variadic
  cellCount := b.cellCount
  code := b.code
  constants := b.constants
  protos := b.protos
  captures := b.captures
  lines := b.lines

end Builder

end MiniLua
