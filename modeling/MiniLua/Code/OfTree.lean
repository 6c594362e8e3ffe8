import MiniLua.Chunk.Name
import MiniLua.Code.Emit
import MiniLua.Syntax.Parser

/-!
Syntax trees to code. An expression leaves its value on the stack, a call or `...` as many values
as wanted; a statement leaves the stack as it was.
-/

namespace MiniLua

open Emit

def BinaryOp.opcode? : BinaryOp → Option Opcode
  | .add => some .add
  | .sub => some .sub
  | .mul => some .mul
  | .div => some .div
  | .mod => some .mod
  | .pow => some .pow
  | .concat => some .concat
  | .eq => some .eq
  | .neq => some .ne
  | .lt => some .lt
  | .le => some .le
  | .gt => some .gt
  | .ge => some .ge
  | .and | .or => none

/-- The jump that keeps the left operand as the result. -/
def BinaryOp.shortcut : BinaryOp → Opcode
  | .and => .jumpIfFalseKeep
  | _ => .jumpIfTrueKeep

def UnaryOp.opcode : UnaryOp → Opcode
  | .neg => .neg
  | .not => .not
  | .len => .len

/-- The value of a negated literal, unless the integer has no negative. -/
def negatedLiteral? : UnaryOp → Expr → Option Value
  | .neg, .int i _ => (int64? (-i.toInt)).map .int
  | .neg, .float x _ => some (.ofFloat (-x))
  | _, _ => none

/-- The call itself, after its callee and `args` of its arguments. -/
def emitCall (args : Nat) (multi : Bool) (want : Want) (pos : Position) : Emit Unit := do
  if 255 < args then fault .tooManyArguments pos.codeLine
  let c ←
    match want with
    | .all => pure 0
    | .exactly n => if n < 255 then pure (n + 1) else fault .tooManyResults pos.codeLine
  setLine pos
  build fun b ↦ b.emit ⟨Opcode.call.byte, args.toUInt8, multi.toUInt8, c.toUInt8⟩

def emitVarargs (want : Want) (pos : Position) : Emit Unit := do
  needVarargs pos.codeLine
  match want with
  | .all => opA .varargs 0
  | .exactly n =>
    if n < 255 then opA .varargs (n + 1) else fault .tooManyResults pos.codeLine

mutual

def Expr.emit (want : Want) : Expr → Emit Unit
  | .nil _ => opA .loadNil 1
  | .bool true _ => op .loadTrue
  | .bool false _ => op .loadFalse
  | .int i _ => loadConst (.int i)
  | .float x _ => loadConst (.ofFloat x)
  | .string s _ => do opX .loadConst (← stringConstant s)
  | .varargs pos => emitVarargs want pos
  | .name name pos => do
    setLine pos
    loadName name
  | .index object key pos => do
    object.emit (.exactly 1)
    key.emit (.exactly 1)
    setLine pos
    op .getIndex
  | .call callee args pos => do
    callee.emit (.exactly 1)
    let (n, multi) ← emitExprs .all 0 args
    emitCall n multi want pos
  | .method object name args pos => do
    object.emit (.exactly 1)
    let key ← textConstant name
    setLine pos
    opX .self key
    let (n, multi) ← emitExprs .all 0 args
    emitCall (n + 1) multi want pos
  | .function body => body.emit none
  | .table fields pos => do
    setLine pos
    op .newTable
    emitFields 1 fields
  | .binary o lhs rhs pos => do
    lhs.emit (.exactly 1)
    match o.opcode? with
    | some code =>
      rhs.emit (.exactly 1)
      setLine pos
      op code
    | none =>
      let skip ← jump o.shortcut
      rhs.emit (.exactly 1)
      land skip
  | .unary o operand pos =>
    match negatedLiteral? o operand with
    | some v => loadConst v
    | none => do
      operand.emit (.exactly 1)
      setLine pos
      op o.opcode
  | .paren inner _ => inner.emit (.exactly 1)

/-- Emits the expressions after `pushed` others. The result is how many values of known number
they leave with those, and whether an open number follows. -/
def emitExprs (want : Want) (pushed : Nat) : List Expr → Emit (Nat × Bool)
  | [] => return (← adjust pushed want, false)
  | e :: rest => do
    if rest.isEmpty && e.isMulti then
      match want with
      | .all =>
        e.emit .all
        return (pushed, true)
      | .exactly n =>
        e.emit (.exactly (n - pushed))
        return (← adjust (pushed + (n - pushed)) want, false)
    else
      e.emit (.exactly 1)
      emitExprs want (pushed + 1) rest

/-- Emits fields for the table on top, items from index `next` on. -/
def emitFields (next : Nat) : List Field → Emit Unit
  | [] => return
  | .item value :: rest => do
    if rest.isEmpty && value.isMulti then
      value.emit .all
      opX .setList next
    else
      loadConst (.int (Int64.ofNat next))
      value.emit (.exactly 1)
      op .initIndex
      emitFields (next + 1) rest
  | .entry key value :: rest => do
    key.emit (.exactly 1)
    value.emit (.exactly 1)
    op .initIndex
    emitFields next rest

/-- Emits a closure; without a name it is called by its place. -/
def FunctionBody.emit (name : Option String) : FunctionBody → Emit Unit
  | .mk params variadic body pos => do
    if 255 < params.length then fault .tooManyParameters pos.codeLine
    let label := (← get).label
    let name := name.getD ("function <" ++ label ++ ":" ++ toString pos.line ++ ">")
    nested name params variadic pos.codeLine body.emit

def Block.emit : Block → Emit Unit
  | .mk stmts _ => inScope (emitStmts stmts)

def emitStmts : List Stmt → Emit Unit
  | [] => return
  | stmt :: rest => do
    stmt.emit
    emitStmts rest

def Stmt.emit : Stmt → Emit Unit
  | .declare names values pos => do
    setLine pos
    let _ ← emitExprs (.exactly names.length) 0 values
    let cells ← names.mapM declare
    cells.reverse.forM (opX .newCell)
  | .declareFunction name body pos => do
    setLine pos
    let cell ← declare name
    opA .loadNil 1
    opX .newCell cell
    body.emit (some name)
    opX .setCell cell
  | .defineFunction name body pos => do
    setLine pos
    body.emit (some name.display)
    let keys := name.fields ++ name.method.toList
    match keys.getLast? with
    | none => storeName name.first
    | some last =>
      loadName name.first
      keys.dropLast.forM fun key ↦ do
        opX .loadConst (← textConstant key)
        op .getIndex
      opX .loadConst (← textConstant last)
      op .setIndex
  | .assign targets values pos => do
    setLine pos
    let _ ← emitExprs (.exactly targets.length) 0 values
    storeTargets targets
  | .call call => do
    setLine call.pos
    if call.isCall then call.emit (.exactly 0) else fault .notCall call.pos.codeLine
  | .block body => do
    setLine body.pos
    body.emit
  | .whileLoop cond body pos => do
    setLine pos
    let start ← here
    cond.emit (.exactly 1)
    let exit ← jump .jumpIfFalse
    looped do
      body.emit
      opX .jump start
      land exit
  | .repeatLoop (.mk stmts _) cond pos => do
    setLine pos
    let start ← here
    looped (inScope do
      emitStmts stmts
      cond.emit (.exactly 1)
      opX .jumpIfFalse start)
  | .branch branches otherwise pos => do
    setLine pos
    let ends ← emitBranches otherwise.isSome branches
    emitOtherwise otherwise
    landAll ends
  | .numericFor var start limit step body pos => do
    setLine pos
    inScope do
      start.emit (.exactly 1)
      limit.emit (.exactly 1)
      emitStep step
      let base ← declare "(for index)"
      let limitCell ← declare "(for limit)"
      let stepCell ← declare "(for step)"
      opX .newCell stepCell
      opX .newCell limitCell
      opX .newCell base
      opX .forPrep base
      let again ← here
      opX .forTest base
      let exit ← jump .jumpIfFalse
      looped do
        inScope do
          let cell ← declare var
          opX .getCell base
          opX .newCell cell
          body.emit
        opX .forStep base
        opX .jump again
        land exit
  | .genericFor _ _ _ pos => do
    setLine pos
    fault .genericFor pos.codeLine
  | .returnValues values pos => do
    setLine pos
    let (n, multi) ← emitExprs .all 0 values
    if 255 < n then fault .tooManyReturnValues pos.codeLine
    setLine pos
    build fun b ↦ b.emit ⟨Opcode.ret.byte, n.toUInt8, multi.toUInt8, 0⟩
  | .breakLoop pos => do
    setLine pos
    leaveLoop pos.codeLine

/-- The step of a loop, one if none is given. -/
def emitStep : Option Expr → Emit Unit
  | some step => step.emit (.exactly 1)
  | none => loadConst (.int 1)

def emitOtherwise : Option Block → Emit Unit
  | some block => block.emit
  | none => return

/-- Emits the branches; the result is the jumps that go behind the whole statement. -/
def emitBranches (more : Bool) : List Branch → Emit (List Nat)
  | [] => return []
  | .mk cond body :: rest => do
    cond.emit (.exactly 1)
    let next ← jump .jumpIfFalse
    body.emit
    let exits ← if rest.isEmpty && !more then pure [] else List.singleton <$> jump .jump
    land next
    return exits ++ (← emitBranches more rest)

/-- Pops values into the targets, the last target first. -/
def storeTargets : List Expr → Emit Unit
  | [] => return
  | target :: rest => do
    storeTargets rest
    storeTarget target

def storeTarget : Expr → Emit Unit
  | .name name pos => do
    setLine pos
    storeName name
  | .index object key pos => do
    object.emit (.exactly 1)
    key.emit (.exactly 1)
    setLine pos
    op .setIndex
  | e => fault .notAssignable e.pos.codeLine

end

end MiniLua
