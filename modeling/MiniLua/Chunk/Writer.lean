import MiniLua.Chunk.Format
import MiniLua.Memory.Heap

namespace MiniLua

/-- Why a prototype has no binary form. -/
inductive WriteError
  | noPrototype (handle : Nat)
  | noString (handle : Nat)
  | notStorable (typeName : String)

def WriteError.message : WriteError → String
  | noPrototype handle => "dangling function handle " ++ toString handle
  | noString handle => "dangling string handle " ++ toString handle
  | notStorable typeName => "constant of type " ++ typeName ++ " cannot be serialized"

namespace Binary

def byteString (s : Bytes) : Bytes := littleEndian 4 s.length ++ s

def constantBytes (heap : Heap) : Value → Except WriteError Bytes
  | .nil => .ok [tagNil]
  | .bool false => .ok [tagFalse]
  | .bool true => .ok [tagTrue]
  | .int i => .ok (tagInt :: littleEndian 8 i.toUInt64.toNat)
  | .float bits => .ok (tagFloat :: littleEndian 8 bits.toNat)
  | .string s =>
    match heap.bytes? s with
    | some s => .ok (tagString :: byteString s)
    | none => .error (.noString s)
  | v => .error (.notStorable v.typeName)

def instructionBytes (i : Instruction) : Bytes := [i.c, i.b, i.a, i.op]

def captureBytes : Capture → Bytes
  | .cell n => tagCell :: littleEndian 2 n
  | .upvalue n => tagUpvalue :: littleEndian 2 n

/-- The count of `items` and the bytes of each. -/
def listBytes (items : List α) (bytes : α → Bytes) : Bytes :=
  littleEndian 4 items.length ++ items.flatMap bytes

def headBytes (p : Prototype) : Bytes :=
  byteString (Bytes.ofText p.name) ++
    p.arity.toUInt8 :: p.variadic.toUInt8 :: littleEndian 2 p.cellCount

/-- The bytes of a prototype and those nested in it, at most `depth` deep. -/
def protoBytes (heap : Heap) : Nat → Nat → Except WriteError Bytes
  | 0, handle => .error (.noPrototype handle)
  | depth + 1, handle =>
    match heap.protos[handle]? with
    | none => .error (.noPrototype handle)
    | some p => do
      let constants ← p.constants.toList.mapM (constantBytes heap)
      let nested ← p.protos.toList.mapM (protoBytes heap depth)
      return headBytes p ++ listBytes constants id ++ listBytes p.code.toList instructionBytes ++
        listBytes p.lines.toList (littleEndian 4) ++ listBytes p.captures.toList captureBytes ++
        listBytes nested id

end Binary

open Binary

/-- The binary form of a prototype and everything nested in it. -/
def writeChunk (heap : Heap) (handle : Nat) : Except WriteError Bytes := do
  return signature ++ version :: (← protoBytes heap (heap.protos.size + 1) handle)

end MiniLua
