import MiniLua.Machine.RuntimeError
import MiniLua.Memory.Heap
import MiniLua.Number.Decimal
import MiniLua.Number.Numeral
import MiniLua.Text.Padded

/-!
The operators of guest code on values. Arithmetic takes numbers and numeric strings; integers that
overflow continue as floats.
-/

namespace MiniLua

def Numeral.toValue : Numeral → Value
  | int i => .int i
  | float x => .ofFloat x

def numberText? : Value → Option String
  | .int i => some (intText i)
  | .float bits => some (floatText bits)
  | _ => none

def fail (fault : TypeFault) : Except RuntimeError α := .error (.type fault)

namespace Heap

variable (h : Heap)

/-- Numbers as they are, and numeric strings. -/
def number? : Value → Option Value
  | .int i => some (.int i)
  | .float bits => some (.float bits)
  | .string s => (h.bytes? s).bind fun s ↦ (Numeral.ofBytes? s).map Numeral.toValue
  | _ => none

/-- Strings and the text of numbers. -/
def textBytes? (v : Value) : Option Bytes :=
  match v with
  | .string s => h.bytes? s
  | v => (numberText? v).map Bytes.ofText

/-- Natives get addresses of their own. -/
def nativeTag : Nat := 0x80000000

def addressText (kind : String) (handle : Nat) : String :=
  kind ++ ": 0x" ++ Text.hexText 8 handle

/-- The guest's text of a value. -/
def toStringBytes : Value → Bytes
  | .nil => Bytes.ofText "nil"
  | .bool b => Bytes.ofText (if b then "true" else "false")
  | .int i => Bytes.ofText (intText i)
  | .float bits => Bytes.ofText (floatText bits)
  | .string s => (h.bytes? s).getD []
  | .table t => Bytes.ofText (addressText "table" t)
  | .closure c => Bytes.ofText (addressText "function" c)
  | .native n => Bytes.ofText (addressText "function" (nativeTag ||| n))

def toText (v : Value) : String := (h.toStringBytes v).toTextLossy

end Heap

namespace Operators

/-- The integer result if both operands are integers and it fits, else the float result. -/
def intOrFloat (onInts : Int → Int → Int) (onFloats : Float → Float → Float) (a b : Value) :
    Value :=
  match a, b with
  | .int i, .int j =>
    match int64? (onInts i.toInt j.toInt) with
    | some n => .int n
    | none => .ofFloat (onFloats a.toFloat b.toFloat)
  | _, _ => .ofFloat (onFloats a.toFloat b.toFloat)

/-- The remainder with the sign of the divisor. -/
def modulo (a b : Value) : Except RuntimeError Value :=
  match a, b with
  | .int i, .int j =>
    if j = 0 then fail .zeroModulus else .ok (.int (Int64.ofInt (Int.fmod i.toInt j.toInt)))
  | _, _ =>
    let x := a.toFloat
    let y := b.toFloat
    .ok (.ofFloat (x - (x / y).floor * y))

def onNumbers (op : Opcode) (a b : Value) : Except RuntimeError Value :=
  match op with
  | .add => .ok (intOrFloat (· + ·) (· + ·) a b)
  | .sub => .ok (intOrFloat (· - ·) (· - ·) a b)
  | .mul => .ok (intOrFloat (· * ·) (· * ·) a b)
  | .div => .ok (.ofFloat (a.toFloat / b.toFloat))
  | .pow => .ok (.ofFloat (a.toFloat.pow b.toFloat))
  | .mod => modulo a b
  | _ => .error .operand

/-- The left operand is looked at first. -/
def arith (h : Heap) (op : Opcode) (a b : Value) : Except RuntimeError Value :=
  match h.number? a, h.number? b with
  | some x, some y => onNumbers op x y
  | none, _ => fail (.arithmetic a.typeName)
  | _, none => fail (.arithmetic b.typeName)

def negate (h : Heap) (v : Value) : Except RuntimeError Value :=
  match h.number? v with
  | some (.int i) =>
    match int64? (-i.toInt) with
    | some n => .ok (.int n)
    | none => .ok (.ofFloat (-(floatOfInt i)))
  | some x => .ok (.ofFloat (-x.toFloat))
  | none => fail (.arithmetic v.typeName)

def concat (h : Heap) (a b : Value) : Except RuntimeError Bytes :=
  match h.textBytes? a, h.textBytes? b with
  | some x, some y => .ok (x ++ y)
  | none, _ => fail (.concat a.typeName)
  | _, none => fail (.concat b.typeName)

/-- Bytes of a string, border of a table. -/
def length (h : Heap) : Value → Except RuntimeError Value
  | .string s => .ok (.int (Int64.ofNat ((h.bytes? s).getD []).length))
  | .table t => .ok (.int (Int64.ofNat (((h.tables[t]?).map Table.length).getD 0)))
  | v => fail (.length v.typeName)

/-- Numbers by value, strings by their bytes. -/
def ordered (h : Heap) (onInts : Int64 → Int64 → Bool) (onFloats : Float → Float → Bool)
    (onBytes : Ordering → Bool) (a b : Value) : Except RuntimeError Bool :=
  match a, b with
  | .int i, .int j => .ok (onInts i j)
  | .int _, .float _ | .float _, .int _ | .float _, .float _ => .ok (onFloats a.toFloat b.toFloat)
  | .string s, .string t =>
    .ok (onBytes (compare ((h.bytes? s).getD []) ((h.bytes? t).getD [])))
  | _, _ => fail (.compare a.typeName b.typeName)

def lessThan (h : Heap) (a b : Value) : Except RuntimeError Bool :=
  ordered h (· < ·) (· < ·) (·.isLT) a b

def lessEqual (h : Heap) (a b : Value) : Except RuntimeError Bool :=
  ordered h (· ≤ ·) (· ≤ ·) (·.isLE) a b

end Operators

end MiniLua
