import MiniLua.Machine.Step

namespace MiniLua.Library

open Machine

/-- The closure that `setfenv` is to change: the one given, or the one that runs so many levels
above. -/
def environmentTarget? : Machine (Option Nat) := do
  let target ← arg 0
  match target with
  | .closure c => return some c
  | .int _ | .float _ | .string _ =>
    let depth := (← argInt 0).toInt
    if depth = 0 then throw (.unsupported .threadEnvironment)
    if depth < 0 then throw (← badArgument 0 "level must be non-negative")
    return (← callFrame? depth.toNat).map Frame.closure
  | v => throw (← badArgument 0 ("function or number expected, got " ++ v.typeName))

def setfenv : Native :=
  .plain "setfenv" do
    match ← environmentTarget?, ← arg 1 with
    | some c, .table env =>
      changeHeap fun h ↦ { h with closures := h.closures.modify c fun c ↦ { c with env } }
      setResults [.closure c]
    | _, _ => setResults []

end MiniLua.Library
