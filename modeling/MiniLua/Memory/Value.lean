import MiniLua.Number.Binary

namespace MiniLua

/-- A guest value. A float is kept as its bits, which also tell one NaN from another; everything that
is not a scalar is a handle into the heap. -/
inductive Value
  | nil
  | bool (b : Bool)
  | int (i : Int64)
  | float (bits : UInt64)
  | string (handle : Nat)
  | table (handle : Nat)
  | closure (handle : Nat)
  | native (handle : Nat)
deriving DecidableEq, Inhabited

namespace Value

def ofFloat (x : Float) : Value := float x.toBits

/-- Integers and floats never coincide, and NaN not even with itself; handles decide the rest. -/
def same : Value → Value → Bool
  | float a, float b => Float.ofBits a == Float.ofBits b
  | a, b => a == b

def isNil : Value → Bool
  | nil => true
  | _ => false

/-- Only `nil` and `false` count as false. -/
def isFalsey : Value → Bool
  | nil | bool false => true
  | _ => false

def isTruthy (v : Value) : Bool := !v.isFalsey

def isCallable : Value → Bool
  | closure _ | native _ => true
  | _ => false

/-- The integer view of a number: floats lose their fraction, and those outside the integer range
have none. -/
def int? : Value → Option Int64
  | int i => some i
  | float bits => truncatedInt64? bits
  | _ => none

def float? : Value → Option Float
  | int i => some (floatOfInt i)
  | float bits => some (Float.ofBits bits)
  | _ => none

/-- The float view of a number that is known to be one. -/
def toFloat (v : Value) : Float := v.float?.getD (0 / 0)

def handle? : Value → Option Nat
  | string h | table h | closure h | native h => some h
  | _ => none

def typeName : Value → String
  | nil => "nil"
  | bool _ => "boolean"
  | int _ | float _ => "number"
  | string _ => "string"
  | table _ => "table"
  | closure _ | native _ => "function"

/-- Numbers compare by value across integers and floats. -/
def equal : Value → Value → Bool
  | int i, float bits | float bits, int i => floatOfInt i == Float.ofBits bits
  | a, b => a.same b

end Value

end MiniLua
