import MiniLua.Machine.State

/-!
Builtins. A builtin sees its arguments as a window of the stack and leaves its results in the same
place; what it does not replace stays, so that one that sets nothing returns its arguments.
-/

namespace MiniLua

/-- How a builtin goes on: it has ended, or it wants a call made first. -/
inductive Outcome
  | finished
  | invoke (callee : Value) (args : List Value) (memo : Memo)

/-- `start` runs on a call, `resume` when a call made on the way has ended. -/
structure Native where
  name : String
  start : Machine Outcome
  resume : Memo → Except RuntimeError (List Value) → Machine Outcome

namespace Native

/-- A builtin that makes no calls. -/
def plain (name : String) (body : Machine Unit) : Native where
  name
  start := do
    body
    return .finished
  resume _ _ := return .finished

end Native

namespace Machine

def argCount : Machine Nat := return ((← get).native?.map NativeCall.argCount).getD 0

/-- An argument counted from zero; nil past the last one. -/
def arg (i : Nat) : Machine Value := do
  let s ← get
  match s.native? with
  | some call => return if i < call.argCount then s.stack.getD (call.base + i) .nil else .nil
  | none => return .nil

def args : Machine (List Value) := do (List.range (← argCount)).mapM arg

/-- How many results the caller of the builtin wants, if not all. -/
def expectedResults : Machine (Option Nat) := return (← get).native?.bind NativeCall.expected

/-- Puts values in the place of the arguments and of results so far. -/
def setResults (values : List Value) : Machine Unit :=
  modify fun s ↦
    match s.native? with
    | some call => { s with stack := (s.stack.shrink call.base).appendList values }
    | none => s

/-- Adds one more result. -/
def addResult (value : Value) : Machine Unit :=
  modify fun s ↦ if s.native?.isSome then { s with stack := s.stack.push value } else s

/-- The guest frame `depth` levels above the builtin; its caller is at one. -/
def callFrame? (depth : Nat) : Machine (Option Frame) := do
  if depth = 0 then return none
  return (← get).frames[depth - 1]?

def badArgument (i : Nat) (detail : String) : Machine RuntimeError := do
  let name := ((← get).native?.map NativeCall.name).getD "?"
  return .type (.argument (i + 1) name detail)

/-- Fails because argument `i` is no `wanted`. -/
def wrongType (i : Nat) (wanted : String) : Machine α := do
  let got ← if i < (← argCount) then Value.typeName <$> arg i else pure "no value"
  throw (← badArgument i (wanted ++ " expected, got " ++ got))

/-- A number or numeric string. -/
def argNumber? (i : Nat) : Machine (Option Value) := do
  return (← get).heap.number? (← arg i)

def argInt (i : Nat) : Machine Int64 := do
  match (← argNumber? i).bind Value.int? with
  | some n => return n
  | none => wrongType i "number"

def argFloat (i : Nat) : Machine Float := do
  match (← argNumber? i).bind Value.float? with
  | some x => return x
  | none => wrongType i "number"

/-- A string or the text of a number. -/
def argBytes (i : Nat) : Machine Bytes := do
  let v ← arg i
  match v with
  | .string s => return ((← get).heap.bytes? s).getD []
  | v =>
    match numberText? v with
    | some text => return Bytes.ofText text
    | none => wrongType i "string"

def argBool (i : Nat) : Machine Bool := return (← arg i).isTruthy

/-- The error that carries a guest value. -/
def raise (value : Value) : Machine RuntimeError := do
  return .raised value ((← get).heap.toText value)

end Machine

end MiniLua
