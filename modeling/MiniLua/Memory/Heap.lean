import MiniLua.Memory.Instruction
import MiniLua.Memory.Table
import MiniLua.Text.Utf8

namespace MiniLua

/-- Where a closure finds a captured cell when it is made. -/
inductive Capture
  /-- A cell of the frame that makes it. -/
  | cell (n : Nat)
  /-- A captured cell of the closure that makes it. -/
  | upvalue (n : Nat)
deriving DecidableEq, Repr

/-- A compiled function. `lines` has a source line for every instruction, or is empty. -/
structure Prototype where
  name : String
  arity : Nat
  variadic : Bool
  cellCount : Nat
  code : Array Instruction
  constants : Array Value
  protos : Array Nat
  captures : Array Capture
  lines : Array Nat
deriving Inhabited

/-- A prototype with its captured cells and the table its globals live in. -/
structure Closure where
  proto : Nat
  env : Nat
  upvalues : Array Nat
deriving Inhabited

/-- Distinct byte strings, numbered in the order of their first use. -/
structure StringPool where
  strings : Array Bytes
  index : Std.TreeMap Bytes Nat

namespace StringPool

def empty : StringPool := ⟨#[], {}⟩

def find? (p : StringPool) (s : Bytes) : Option Nat := p.index[s]?

def get? (p : StringPool) (handle : Nat) : Option Bytes := p.strings[handle]?

def intern (p : StringPool) (s : Bytes) : Nat × StringPool :=
  match p.find? s with
  | some h => (h, p)
  | none => (p.strings.size, ⟨p.strings.push s, p.index.insert s p.strings.size⟩)

def size (p : StringPool) : Nat := p.strings.size

end StringPool

/-- The objects of one interpreter. Nothing is ever removed. -/
structure Heap where
  strings : StringPool
  tables : Array Table
  protos : Array Prototype
  closures : Array Closure
  cells : Array Value

namespace Heap

def empty : Heap := ⟨.empty, #[], #[], #[], #[]⟩

def intern (h : Heap) (s : Bytes) : Nat × Heap :=
  let (n, strings) := h.strings.intern s
  (n, { h with strings })

def bytes? (h : Heap) (handle : Nat) : Option Bytes := h.strings.get? handle

/-- The bytes of a string value. -/
def stringOf? (h : Heap) : Value → Option Bytes
  | .string s => h.bytes? s
  | _ => none

def allocTable (h : Heap) (t : Table) : Nat × Heap :=
  (h.tables.size, { h with tables := h.tables.push t })

def allocProto (h : Heap) (p : Prototype) : Nat × Heap :=
  (h.protos.size, { h with protos := h.protos.push p })

def allocClosure (h : Heap) (c : Closure) : Nat × Heap :=
  (h.closures.size, { h with closures := h.closures.push c })

def allocCell (h : Heap) (v : Value) : Nat × Heap :=
  (h.cells.size, { h with cells := h.cells.push v })

/-- The content of a cell; nil if there is no such cell. -/
def cell (h : Heap) (handle : Nat) : Value := h.cells.getD handle .nil

def setCell (h : Heap) (handle : Nat) (v : Value) : Heap :=
  { h with cells := h.cells.setIfInBounds handle v }

def modifyTable (h : Heap) (handle : Nat) (f : Table → Table) : Heap :=
  { h with tables := h.tables.modify handle f }

/-- The entry of a table; nil for everything else. -/
def rawGet (h : Heap) (table key : Value) : Value :=
  match table with
  | .table t => ((h.tables[t]?).map fun t ↦ t.getValue key).getD .nil
  | _ => .nil

end Heap

end MiniLua
