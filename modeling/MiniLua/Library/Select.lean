import MiniLua.Machine.Step

namespace MiniLua.Library

open Machine

/-- The position a selector names: a positive number without its fraction. -/
def selectedPosition? : Value → Option Nat
  | .int i => if 0 < i then some i.toInt.toNat else none
  | .float bits =>
    match (Binary.ofBits? bits).map Binary.truncate with
    | some n => if 0 < n then some n.toNat else none
    | none => none
  | _ => none

/-- The arguments from a position on, but never fewer than the caller expects. -/
def windowLength (argCount position expected : Nat) : Nat := max (argCount - position) expected

def select : Native :=
  .plain "select" do
    let count ← argCount
    let selector ← arg 0
    if (← get).heap.stringOf? selector = some [35] then
      setResults [.int (Int64.ofNat (count - 1))]
    else
      match selectedPosition? selector with
      | none => setResults []
      | some position =>
        let length := windowLength count position ((← expectedResults).getD 0)
        setResults (← (List.range length).mapM fun i ↦ arg (position + i))

end MiniLua.Library
