namespace MiniLua

/-- Operations of the machine. Operands are popped from the stack and results pushed; `a`, `b`, `c`
and `x` are parts of the instruction. A multi result is as many values as the last open call or
vararg left. -/
inductive Opcode
  /-- Pushes `a` nils. -/
  | loadNil
  | loadTrue
  | loadFalse
  /-- Pushes constant `x`. -/
  | loadConst
  | getCell
  | setCell
  /-- Pops into a fresh cell, which slot `x` then denotes. -/
  | newCell
  | getUpvalue
  | setUpvalue
  /-- Pushes the entry of the environment under constant `x`. -/
  | getGlobal
  | setGlobal
  /-- Pops a key and an object, pushes the entry. -/
  | getIndex
  /-- Pops a key, an object and a value, and stores the value. -/
  | setIndex
  | newTable
  /-- Pops a value and a key, and stores the value in the table below, which stays. -/
  | initIndex
  /-- Pops a multi result into the table below from index `x` on. -/
  | setList
  /-- Replaces an object by its entry under constant `x` and the object. -/
  | self
  | add
  | sub
  | mul
  | div
  | mod
  | pow
  | neg
  | concat
  | len
  | not
  | eq
  | ne
  | lt
  | le
  | gt
  | ge
  /-- Continues at `x`. -/
  | jump
  | jumpIfFalse
  /-- Continues at `x` and keeps the top if it is false, pops it otherwise. -/
  | jumpIfFalseKeep
  | jumpIfTrueKeep
  /-- Drops `a` values. -/
  | pop
  /-- Makes the loop cells at `x`, `x + 1`, `x + 2` numbers. -/
  | forPrep
  /-- Pushes whether the loop goes on. -/
  | forTest
  | forStep
  /-- Calls with `a` arguments, and a multi result if `b` is not zero, for `c - 1` results, or all
  of them if `c` is zero. -/
  | call
  /-- Returns `a` values, and a multi result if `b` is not zero. -/
  | ret
  /-- Pushes `a - 1` varargs, or all of them if `a` is zero. -/
  | varargs
  /-- Pushes a closure of nested prototype `x`. -/
  | closure
deriving DecidableEq, Repr

namespace Opcode

def byte : Opcode → UInt8
  | loadNil => 0 | loadTrue => 1 | loadFalse => 2 | loadConst => 3
  | getCell => 10 | setCell => 11 | newCell => 12 | getUpvalue => 13 | setUpvalue => 14
  | getGlobal => 20 | setGlobal => 21
  | getIndex => 30 | setIndex => 31 | newTable => 32 | initIndex => 33 | setList => 34 | self => 35
  | add => 40 | sub => 41 | mul => 42 | div => 43 | mod => 44 | pow => 45 | neg => 46
  | concat => 47 | len => 48 | not => 49
  | eq => 50 | ne => 51 | lt => 52 | le => 53 | gt => 54 | ge => 55
  | jump => 60 | jumpIfFalse => 61 | jumpIfFalseKeep => 62 | jumpIfTrueKeep => 63 | pop => 64
  | forPrep => 65 | forTest => 66 | forStep => 67
  | call => 70 | ret => 71 | varargs => 72 | closure => 73

def ofByte? : UInt8 → Option Opcode
  | 0 => some loadNil | 1 => some loadTrue | 2 => some loadFalse | 3 => some loadConst
  | 10 => some getCell | 11 => some setCell | 12 => some newCell | 13 => some getUpvalue
  | 14 => some setUpvalue | 20 => some getGlobal | 21 => some setGlobal
  | 30 => some getIndex | 31 => some setIndex | 32 => some newTable | 33 => some initIndex
  | 34 => some setList | 35 => some self
  | 40 => some add | 41 => some sub | 42 => some mul | 43 => some div | 44 => some mod
  | 45 => some pow | 46 => some neg | 47 => some concat | 48 => some len | 49 => some not
  | 50 => some eq | 51 => some ne | 52 => some lt | 53 => some le | 54 => some gt | 55 => some ge
  | 60 => some jump | 61 => some jumpIfFalse | 62 => some jumpIfFalseKeep
  | 63 => some jumpIfTrueKeep | 64 => some pop | 65 => some forPrep | 66 => some forTest
  | 67 => some forStep | 70 => some call | 71 => some ret | 72 => some varargs
  | 73 => some closure
  | _ => none

theorem ofByte?_byte (op : Opcode) : ofByte? op.byte = some op := by cases op <;> rfl

/-- The mnemonic in listings. -/
def name : Opcode → String
  | loadNil => "LOAD_NIL" | loadTrue => "LOAD_TRUE" | loadFalse => "LOAD_FALSE"
  | loadConst => "LOAD_CONST" | getCell => "GET_CELL" | setCell => "SET_CELL"
  | newCell => "NEW_CELL" | getUpvalue => "GET_UPVAL" | setUpvalue => "SET_UPVAL"
  | getGlobal => "GET_GLOBAL" | setGlobal => "SET_GLOBAL" | getIndex => "GET_INDEX"
  | setIndex => "STORE_INDEX" | newTable => "NEW_TABLE" | initIndex => "INIT_INDEX"
  | setList => "SET_LIST" | self => "SELF" | add => "ADD" | sub => "SUB" | mul => "MUL"
  | div => "DIV" | mod => "MOD" | pow => "POW" | neg => "UNM" | concat => "CONCAT"
  | len => "LEN" | not => "NOT" | eq => "EQ" | ne => "NE" | lt => "LT" | le => "LE" | gt => "GT"
  | ge => "GE" | jump => "JUMP" | jumpIfFalse => "JUMP_IF_FALSE"
  | jumpIfFalseKeep => "JUMP_IF_FALSE_KEEP" | jumpIfTrueKeep => "JUMP_IF_TRUE_KEEP"
  | pop => "POP" | forPrep => "FOR_PREP" | forTest => "FOR_TEST" | forStep => "FOR_STEP"
  | call => "CALL" | ret => "RETURN" | varargs => "VARARG" | closure => "CLOSURE"

/-- Whether the operand is the wide one, `x`. -/
def isWide : Opcode → Bool
  | loadConst | getCell | setCell | newCell | getUpvalue | setUpvalue | getGlobal | setGlobal
  | setList | self | jump | jumpIfFalse | jumpIfFalseKeep | jumpIfTrueKeep | forPrep | forTest
  | forStep | closure => true
  | _ => false

end Opcode

/-- An operation byte and three operand bytes, which together are the wide operand. -/
structure Instruction where
  op : UInt8
  a : UInt8
  b : UInt8
  c : UInt8
deriving DecidableEq, Repr, Inhabited

namespace Instruction

/-- The first number that is no wide operand. -/
def wideLimit : Nat := 0x1000000

/-- The wide operand. -/
def x (i : Instruction) : Nat := (i.a.toNat * 256 + i.b.toNat) * 256 + i.c.toNat

/-- An instruction with a wide operand, of which the low 24 bits are kept. -/
def wide (op : UInt8) (x : Nat) : Instruction :=
  ⟨op, (x / 0x10000).toUInt8, (x / 0x100).toUInt8, x.toUInt8⟩

theorem x_lt (i : Instruction) : i.x < wideLimit := by
  have ha := i.a.toNat_lt
  have hb := i.b.toNat_lt
  have hc := i.c.toNat_lt
  simp only [x, wideLimit]
  omega

theorem x_wide (op : UInt8) (x : Nat) : (wide op x).x = x % wideLimit := by
  simp only [Instruction.x, wide, wideLimit, UInt8.toNat_ofNat', Nat.toUInt8_eq]
  omega

/-- The instruction as a 32-bit number. -/
def toNat (i : Instruction) : Nat := i.op.toNat * wideLimit + i.x

def ofNat (n : Nat) : Instruction := wide (n / wideLimit).toUInt8 n

def opcode? (i : Instruction) : Option Opcode := Opcode.ofByte? i.op

end Instruction

end MiniLua
