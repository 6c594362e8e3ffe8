import MiniLua.Machine.Step

namespace MiniLua.Library

open Machine

/-- The larger value; the second of equal ones. -/
def larger (h : Heap) (a b : Value) : Except RuntimeError Value := do
  return if ← Operators.lessThan h b a then a else b

/-- The smaller value; the first of equal ones. -/
def smaller (h : Heap) (a b : Value) : Except RuntimeError Value := do
  return if ← Operators.lessThan h b a then b else a

/-- Folds the arguments from the left. -/
def foldArgs (pick : Heap → Value → Value → Except RuntimeError Value) : Machine Unit := do
  match ← args with
  | [] => throw (← badArgument 0 "number expected, got no value")
  | first :: rest =>
    let heap := (← get).heap
    setResults [← lift (rest.foldlM (pick heap) first)]

def numberArg (i : Nat) : Machine Value := do
  let v ← arg i
  match v with
  | .int _ | .float _ => return v
  | _ => return .ofFloat (← argFloat i)

def abs : Native :=
  .plain "abs" do
    let v ← numberArg 0
    let heap := (← get).heap
    setResults [← lift (do larger heap v (← Operators.arith heap .sub (.int 0) v))]

def maximum : Native := .plain "max" (foldArgs larger)

def minimum : Native := .plain "min" (foldArgs smaller)

/-- The part before the point, rounded toward zero, and the rest. -/
def splitFloat (x : Float) : Float × Float :=
  let whole := if 0 < x then x.floor else x.ceil
  (whole, x - whole)

def modf : Native :=
  .plain "modf" do
    let (whole, rest) := splitFloat (← argFloat 0)
    setResults [.ofFloat whole, .ofFloat rest]

def sin : Native :=
  .plain "sin" do setResults [.ofFloat (← argFloat 0).sin]

end MiniLua.Library
