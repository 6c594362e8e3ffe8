import MiniLua.Code.Builder

/-!
Emitting code. The state is the function under construction, those around it, and the heap that
receives string constants and finished prototypes.
-/

namespace MiniLua

/-- `enclosing` holds the functions around the current one, innermost first. -/
structure Assembly where
  heap : Heap
  current : Builder
  enclosing : List Builder
  label : String

abbrev Emit := EStateM CompileError Assembly

/-- How many values an expression is to leave. -/
inductive Want
  | exactly (n : Nat)
  | all
deriving DecidableEq, Repr

/-- What a name denotes in the function under construction. -/
inductive Binding
  | cell (n : Nat)
  | upvalue (n : Nat)
  | global
deriving DecidableEq, Repr

/-- Captures `name` in `b` from the functions around it, and in each of them up to the one that
declares it. -/
def Builder.captureFrom (b : Builder) (name : String) :
    List Builder → Except CompileError (Option Nat × Builder × List Builder)
  | [] => .ok (none, b, [])
  | parent :: outer =>
    match parent.resolve? name with
    | some cell => do
      let (i, b) ← b.addCapture (.cell cell)
      return (some i, b, parent :: outer)
    | none => do
      let (found, parent, outer) ← parent.captureFrom name outer
      match found with
      | some n =>
        let (i, b) ← b.addCapture (.upvalue n)
        return (some i, b, parent :: outer)
      | none => return (none, b, parent :: outer)

namespace Emit

def build (f : Builder → Builder) : Emit Unit := modify fun s ↦ { s with current := f s.current }

def inspect (f : Builder → α) : Emit α := return f (← get).current

/-- Runs a step of the builder that may fail. -/
def tryBuild (f : Builder → Except CompileError (α × Builder)) : Emit α := do
  match ← inspect f with
  | .ok (a, b) =>
    build fun _ ↦ b
    return a
  | .error e => throw e

def fault (fault : CompileFault) (line : Nat) : Emit α := throw (.code fault line)

def setLine (p : Position) : Emit Unit := build fun b ↦ { b with line := p.codeLine }

def op (op : Opcode) : Emit Unit := build fun b ↦ b.emit ⟨op.byte, 0, 0, 0⟩

def opA (op : Opcode) (a : Nat) : Emit Unit := build fun b ↦ b.emit ⟨op.byte, a.toUInt8, 0, 0⟩

def opX (op : Opcode) (x : Nat) : Emit Unit := build fun b ↦ b.emit (.wide op.byte x)

/-- The place of the next instruction. -/
def here : Emit Nat := inspect Builder.here

/-- Emits a jump whose target is set later. -/
def jump (op : Opcode) : Emit Nat := do
  let at_ ← here
  opX op 0
  return at_

/-- Makes a jump go to the next instruction. -/
def land (at_ : Nat) : Emit Unit := do
  let target ← here
  if target < Instruction.wideLimit then build fun b ↦ b.patch at_ target
  else fault .tooLong (← inspect Builder.line)

def landAll (jumps : List Nat) : Emit Unit := jumps.forM land

/-- The index of a constant. -/
def constant (v : Value) : Emit Nat := tryBuild fun b ↦ b.addConstant v

def stringConstant (s : Bytes) : Emit Nat := do
  let n ← modifyGet fun st ↦
    let (n, heap) := st.heap.intern s
    (n, { st with heap })
  constant (.string n)

def textConstant (s : String) : Emit Nat := stringConstant (Bytes.ofText s)

def loadConst (v : Value) : Emit Unit := do opX .loadConst (← constant v)

/-- Emits `op` for `n` values, as many at a time as an operand can say. -/
def repeated (op : Opcode) : Nat → Nat → Emit Unit
  | 0, _ => return
  | bound + 1, n => do
    if n = 0 then return
    opA op (min n 255)
    repeated op bound (n - 255)

def nils (n : Nat) : Emit Unit := repeated .loadNil n n

def pops (n : Nat) : Emit Unit := repeated .pop n n

def inScope (body : Emit Unit) : Emit Unit := do
  build Builder.openScope
  body
  build Builder.closeScope

def declare (name : String) : Emit Nat := tryBuild fun b ↦ b.declare name

def binding (name : String) : Emit Binding := do
  let s ← get
  match s.current.resolve? name with
  | some cell => return .cell cell
  | none =>
    match s.current.captureFrom name s.enclosing with
    | .error e => throw e
    | .ok (found, current, enclosing) =>
      set { s with current, enclosing }
      return found.elim .global .upvalue

def loadName (name : String) : Emit Unit := do
  match ← binding name with
  | .cell n => opX .getCell n
  | .upvalue n => opX .getUpvalue n
  | .global => opX .getGlobal (← textConstant name)

/-- Pops the top into a variable. -/
def storeName (name : String) : Emit Unit := do
  match ← binding name with
  | .cell n => opX .setCell n
  | .upvalue n => opX .setUpvalue n
  | .global => opX .setGlobal (← textConstant name)

/-- A loop around `body`, which may leave it by jumps that land behind the loop. -/
def looped (body : Emit Unit) : Emit Unit := do
  build fun b ↦ { b with loops := [] :: b.loops }
  body
  let jumps ← inspect fun b ↦ (b.loops.headD []).reverse
  build fun b ↦ { b with loops := b.loops.tail }
  landAll jumps

def leaveLoop (line : Nat) : Emit Unit := do
  match ← inspect Builder.loops with
  | [] => fault .noLoop line
  | jumps :: outer =>
    let exit ← jump .jump
    build fun b ↦ { b with loops := (exit :: jumps) :: outer }

/-- Fails if the current function has no varargs. -/
def needVarargs (line : Nat) : Emit Unit := do
  unless ← inspect Builder.variadic do fault .noVarargs line

/-- Brings a list that left `pushed` values to the wanted number. -/
def adjust (pushed : Nat) : Want → Emit Nat
  | .all => return pushed
  | .exactly n => do
    if pushed < n then nils (n - pushed) else pops (pushed - n)
    return n

/-- Adds a prototype to the heap. -/
def allocProto (p : Prototype) : Emit Nat :=
  modifyGet fun s ↦
    let (n, heap) := s.heap.allocProto p
    (n, { s with heap })

/-- Compiles `body` as a function of its own inside the current one, and pushes a closure of it. -/
def nested (name : String) (params : List String) (variadic : Bool) (line : Nat)
    (body : Emit Unit) : Emit Unit := do
  modify fun s ↦
    { s with current := .start name params variadic line, enclosing := s.current :: s.enclosing }
  body
  op .ret
  let proto ← allocProto (← inspect Builder.toPrototype)
  modify fun s ↦
    match s.enclosing with
    | parent :: outer => { s with current := parent, enclosing := outer }
    | [] => s
  let index ← inspect fun b ↦ b.protos.size
  build fun b ↦ { b with protos := b.protos.push proto, line }
  opX .closure index

end Emit

end MiniLua
