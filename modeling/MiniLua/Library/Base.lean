import MiniLua.Machine.Step

/-! The global builtins on values: assertions, conversions, raw access, lists and printing. -/

namespace MiniLua.Library

open Machine

/-- Passes its arguments through unless the first is false. -/
def assert : Native :=
  .plain "assert" do
    unless ← argBool 0 do
      let message ← arg 1
      let value ← if message.isNil then textValue "assertion failed!" else pure message
      throw (.assertion value ((← get).heap.toText value))

/-- The number a string writes in a base, nil if it writes none. -/
def parsedNumber (base : Nat) (bytes : Bytes) : Value :=
  if base = 10 then ((Numeral.ofBytes? bytes).map Numeral.toValue).getD .nil
  else ((radixInt? base bytes).map Value.int).getD .nil

def tonumber : Native :=
  .plain "tonumber" do
    let base ← if (← arg 1).isNil then pure 10 else argInt 1
    if base < 2 ∨ 36 < base then throw (← badArgument 1 "base out of range")
    let v ← arg 0
    let heap := (← get).heap
    let result :=
      match v with
      | .int _ | .float _ => v
      | .string s => parsedNumber base.toInt.toNat ((heap.bytes? s).getD [])
      | _ => .nil
    setResults [result]

def rawget : Native :=
  .plain "rawget" do
    setResults [(← get).heap.rawGet (← arg 0) (← arg 1)]

def tostring : Native :=
  .plain "tostring" do
    setResults [← bytesValue ((← get).heap.toStringBytes (← arg 0))]

/-- Omitted, nil and zero bounds take the default. -/
def listBound (i : Nat) (default : Int) : Machine Int := do
  if (← arg i).isNil then return default
  let n := (← argInt i).toInt
  return if n = 0 then default else n

/-- A call never unpacks more values than this. -/
def maxUnpacked : Int := 1000000

def unpack : Native :=
  .plain "unpack" do
    let list ← arg 0
    let heap := (← get).heap
    match list with
    | .table t =>
      let table := heap.tables.getD t .empty
      let first ← listBound 1 1
      let last ← listBound 2 table.length
      if last < first then setResults []
      else if maxUnpacked ≤ last - first then typeError .tooManyUnpacked
      else
        setResults ((List.range (last - first + 1).toNat).map fun (i : Nat) ↦
          table.get (.int (Int64.ofInt (first + i))))
    | v => typeError (.notList (heap.toText v))

def next : Native := .plain "next" (throw (.unsupported .traversal))

/-- The text of all arguments, separated by tabs. -/
def print : Native :=
  .plain "print" do
    let heap := (← get).heap
    let line := [(9 : UInt8)].intercalate ((← args).map heap.toStringBytes) ++ [10]
    match (← get).host.print line with
    | .ok host =>
      modify fun s ↦ { s with host }
      setResults []
    | .error reason => throw (.io reason)

/-- Nothing is ever collected. -/
def collectgarbage : Native := .plain "collectgarbage" (setResults [])

end MiniLua.Library
