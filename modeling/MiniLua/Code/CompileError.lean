import MiniLua.Token.SyntaxError

namespace MiniLua

/-- Why a syntax tree has no code. -/
inductive CompileFault
  | noLoop
  | noVarargs
  | notAssignable
  | notCall
  | genericFor
  | tooManyLocals
  | tooManyConstants
  | tooManyUpvalues
  | tooLong
  | tooManyParameters
  | tooManyArguments
  | tooManyResults
  | tooManyReturnValues
deriving DecidableEq, Repr

/-- Faults are misuse, missing features or exceeded capacities. -/
inductive CompileFault.Kind
  | semantic
  | unsupported
  | limit
deriving DecidableEq, Repr

namespace CompileFault

def kind : CompileFault → Kind
  | noLoop | noVarargs | notAssignable | notCall => .semantic
  | genericFor => .unsupported
  | _ => .limit

def message : CompileFault → String
  | noLoop => "no loop to break"
  | noVarargs => "cannot use '...' outside a vararg function"
  | notAssignable => "cannot assign to this expression"
  | notCall => "expected a call"
  | genericFor => "generic 'for' is not supported"
  | tooManyLocals => "too many local variables"
  | tooManyConstants => "too many constants"
  | tooManyUpvalues => "too many upvalues"
  | tooLong => "control structure too long"
  | tooManyParameters => "too many parameters"
  | tooManyArguments => "too many arguments"
  | tooManyResults => "too many results"
  | tooManyReturnValues => "too many return values"

end CompileFault

/-- Why source text has no code. -/
inductive CompileError
  | parse (e : SyntaxError)
  | code (fault : CompileFault) (line : Nat)

namespace CompileError

def message : CompileError → String
  | parse e => e.message
  | code fault _ => fault.message

def line : CompileError → Nat
  | parse e => e.pos.codeLine
  | code _ line => line

end CompileError

end MiniLua
