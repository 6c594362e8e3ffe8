import MiniLua.Chunk.LoadError
import MiniLua.Memory.Value

namespace MiniLua

/-- Operands and arguments of a wrong kind. -/
inductive TypeFault
  | arithmetic (kind : String)
  | zeroModulus
  | concat (kind : String)
  | length (kind : String)
  | compare (left right : String)
  | call (kind : String)
  | index (kind : String)
  | nilKey
  | nanKey
  | loopNumber (what : String)
  | argument (position : Nat) (function detail : String)
  | notList (shown : String)
  | notFunction (shown : String)
  | tooManyUnpacked
  | stringTooLarge
  | text (message : String)

inductive Unsupported
  | traversal
  | threadEnvironment

/-- Why a run stops. -/
inductive RuntimeError
  /-- A guest value thrown as an error, with its text. -/
  | raised (value : Value) (text : String)
  | assertion (value : Value) (text : String)
  | type (fault : TypeFault)
  | arity (message : String)
  | unsupported (feature : Unsupported)
  | load (e : LoadError)
  | io (reason : String)
  | stackOverflow
  | opcode (op : UInt8)
  | operand
  | noFunction

namespace TypeFault

def message : TypeFault → String
  | arithmetic kind => "attempt to perform arithmetic on a " ++ kind ++ " value"
  | zeroModulus => "attempt to perform 'n%0'"
  | concat kind => "attempt to concatenate a " ++ kind ++ " value"
  | length kind => "attempt to get length of a " ++ kind ++ " value"
  | compare left right =>
    if left = right then "attempt to compare two " ++ left ++ " values"
    else "attempt to compare " ++ left ++ " with " ++ right
  | call kind => "attempt to call a " ++ kind ++ " value"
  | index kind => "attempt to index a " ++ kind ++ " value"
  | nilKey => "table index is nil"
  | nanKey => "table index is NaN"
  | loopNumber what => "'for' " ++ what ++ " must be a number"
  | argument position function detail =>
    "bad argument #" ++ toString position ++ " to '" ++ function ++ "' (" ++ detail ++ ")"
  | notList shown => "not a list: " ++ shown
  | notFunction shown => "not a function: " ++ shown
  | tooManyUnpacked => "too many results to unpack"
  | stringTooLarge => "resulting string too large"
  | text message => message

end TypeFault

def Unsupported.message : Unsupported → String
  | traversal => "'next' is not supported: tables cannot be traversed"
  | threadEnvironment => "'setfenv' cannot change the running thread's environment"

namespace RuntimeError

def message : RuntimeError → String
  | raised _ text | assertion _ text => text
  | type fault => fault.message
  | arity message => message
  | unsupported feature => feature.message
  | load e => e.message
  | io reason => "i/o error: " ++ reason
  | stackOverflow => "stack overflow"
  | opcode op => "invalid opcode " ++ toString op.toNat
  | operand => "invalid operand"
  | noFunction => "function not found"

/-- The guest value an error carries. -/
def value? : RuntimeError → Option Value
  | raised value _ | assertion value _ => some value
  | _ => none

end RuntimeError

end MiniLua
