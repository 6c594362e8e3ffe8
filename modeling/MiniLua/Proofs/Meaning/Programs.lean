import MiniLua.Proofs.Code.Balanced
import MiniLua.Proofs.Meaning.Calls
import MiniLua.Proofs.Twins.Compiling

/-! A program that is compiled and run does what its syntax tree means. -/

namespace MiniLua

open Effects Machine Eval

section

variable {natives : Array Native} {s t : State} {w : World} {source : Bytes} {chunkName : String}
  {heap : Heap} {main : Nat}

end

/-- An evaluation and a run end alike: with the same values or the same error, with the same contents
in all tables and cells, and having written the same. -/
inductive Ends (natives : Array Native) :
    EStateM.Result Ending World (List Value) → Except RuntimeError (List Value) → State → Prop
  | returns {vs vs' : List Value} {w : World} {t : State} (values : List.Forall₂ (w.Same natives t) vs vs')
      (data : w.machine.heap.Pairs natives.size t.heap) (host : t.host = w.machine.host) :
      Ends natives (.ok vs w) (.ok vs') t
  | fails {e e' : RuntimeError} {w : World} {t : State} (same : e.Matches (w.Same natives t) e')
      (data : w.machine.heap.Pairs natives.size t.heap) (host : t.host = w.machine.host) :
      Ends natives (.error (.error e) w) (.error e') t

section

variable {builtins : Array Builtin} {natives : Array Native} {code : Heap} {w : World} {s : State}
  {k closure : Nat} {args args' : List Value}

end

/-- Loads a program into a new machine and calls its main function. -/
def runSource (source : Bytes) (fuel : Nat) : Option Run :=
  match compile source "=a" (State.start {} .empty true).heap with
  | .ok main heap =>
    match Loading.closureOf main { State.start {} .empty true with heap } with
    | .ok v s => some (callValue #[] fuel v [] s)
    | .error .. => none
  | .error .. => none

end MiniLua
