import MiniLua.Code.Emit
import MiniLua.Proofs.Machine.Performed
import MiniLua.Proofs.Twins.Builtins
import MiniLua.Syntax.Tree

/-!
What a program means, read off its syntax tree. Values live in the heap of a machine and are worked on
by the machine's own operations, but nothing is compiled: there are no instructions, no slots and no
operand stack. Evaluation has fuel for calls within calls and for the rounds of a loop.
-/

namespace MiniLua

open Effects Machine

/-- Names with the cells of the variables they stand for, the innermost first. -/
abbrev Bindings := List (String × Nat)

def Bindings.cell? (env : Bindings) (name : String) : Option Nat :=
  (env.find? fun b ↦ b.1 == name).map Prod.snd

/-- The text of a function, with the variables around the place where it was made. -/
structure Routine where
  params : List String
  variadic : Bool
  body : Block
  around : Bindings

/-- A machine without code. Its activations say which closures run, and a closure's prototype is the
number of its routine. -/
structure World where
  machine : State
  routines : Array Routine

/-- Why an evaluation ends early. -/
inductive Ending
  | error (e : RuntimeError)
  /-- A builtin was called that loads other programs. -/
  | loads
  /-- The fuel is spent. -/
  | spent

abbrev Eval := EStateM Ending World

/-- How a statement ends. -/
inductive Flow
  | next
  /-- The innermost loop is left. -/
  | exit
  /-- The function returns. -/
  | ret (values : List Value)

namespace Flow

/-- What a function returns that ends so. -/
def results : Flow → List Value
  | ret values => values
  | _ => []

/-- How a loop ends of which a round ends so. -/
def caught : Flow → Flow
  | exit => next
  | flow => flow

end Flow

/-- How many values are wanted, if not all. -/
def Want.count? : Want → Option Nat
  | .exactly n => some n
  | .all => none

/-- What is wanted of the values behind the first. -/
def Want.less : Want → Want
  | .exactly n => .exactly (n - 1)
  | .all => .all

namespace Eval

/-- An operation of the machine. -/
def act (m : Machine α) : Eval α := fun w ↦
  match m w.machine with
  | .ok a machine => .ok a { w with machine }
  | .error e machine => .error (.error e) { w with machine }

def raise (e : RuntimeError) : Eval α := throw (.error e)

/-- A new variable. -/
def fresh (v : Value) : Eval Nat := act (onHeap fun h ↦ h.allocCell v)

def content (cell : Nat) : Eval Value := return (← get).machine.heap.cell cell

def store (cell : Nat) (v : Value) : Eval Unit := act (changeHeap fun h ↦ h.setCell cell v)

/-- A closure of a routine, with this table for its globals. -/
def close (r : Routine) (env : Nat) : Eval Value := fun w ↦
  let (c, heap) := w.machine.heap.allocClosure ⟨w.routines.size, env, #[]⟩
  .ok (.closure c) ⟨{ w.machine with heap }, w.routines.push r⟩

/-- The first of the values. -/
def one (values : Eval (List Value)) : Eval Value := return (← values).headD .nil

/-- As many of the values as wanted, with nil for those that are missing. -/
def adjust (want : Want) (values : Eval (List Value)) : Eval (List Value) :=
  return adjusted (← values) want.count?

/-- Rounds of a loop, until one of them says how the loop ends. -/
def rounds : Nat → Eval (Option Flow) → Eval Flow
  | 0, _ => throw .spent
  | fuel + 1, round => do
    match ← round with
    | some flow => return flow
    | none => rounds fuel round

end Eval

/-- Around the statements of a function that runs: its closure, the arguments for `...`, how many
rounds a loop may take, and how a value is called with arguments for so many results. -/
structure Context where
  closure : Nat
  varargs : List Value
  rounds : Nat
  call : Value → List Value → Option Nat → Eval (List Value)

namespace Context

open Eval

variable (c : Context)

/-- The table of the globals. -/
def globals : Machine Nat := do
  match (← get).heap.closures[c.closure]? with
  | some closure => return closure.env
  | none => throw .noFunction

def loadGlobal (name : String) : Machine Value := do
  let key ← textValue name
  let globals ← c.globals
  return (← get).heap.rawGet (.table globals) key

def storeGlobal (name : String) (v : Value) : Machine Unit := do
  let key ← textValue name
  setIndex (.table (← c.globals)) key v

def load (env : Bindings) (name : String) : Eval Value :=
  match env.cell? name with
  | some cell => content cell
  | none => act (c.loadGlobal name)

def store (env : Bindings) (name : String) (v : Value) : Eval Unit :=
  match env.cell? name with
  | some cell => Eval.store cell v
  | none => act (c.storeGlobal name v)

end Context

/-- Operators that take two values, whatever they are. -/
def BinaryOp.apply (op : BinaryOp) (a b : Value) : Machine Value := do
  let h := (← get).heap
  match op with
  | .add => lift (Operators.arith h .add a b)
  | .sub => lift (Operators.arith h .sub a b)
  | .mul => lift (Operators.arith h .mul a b)
  | .div => lift (Operators.arith h .div a b)
  | .mod => lift (Operators.arith h .mod a b)
  | .pow => lift (Operators.arith h .pow a b)
  | .concat => bytesValue (← lift (Operators.concat h a b))
  | .eq => return .bool (a.equal b)
  | .neq => return .bool (!a.equal b)
  | .lt => return .bool (← lift (Operators.lessThan h a b))
  | .le => return .bool (← lift (Operators.lessEqual h a b))
  | .gt => return .bool (← lift (Operators.lessThan h b a))
  | .ge => return .bool (← lift (Operators.lessEqual h b a))
  | .and => return if a.isFalsey then a else b
  | .or => return if a.isFalsey then b else a

def UnaryOp.apply (op : UnaryOp) (v : Value) : Machine Value := do
  let h := (← get).heap
  match op with
  | .neg => lift (Operators.negate h v)
  | .not => return .bool v.isFalsey
  | .len => lift (Operators.length h v)

/-- Whether the left operand is the result, so that the right one is not evaluated. -/
def BinaryOp.settles (op : BinaryOp) (a : Value) : Bool :=
  match op with
  | .and => a.isFalsey
  | .or => a.isTruthy
  | _ => false

open Eval

/-- A function is made where these variables are in scope. -/
def FunctionBody.eval (c : Context) (env : Bindings) : FunctionBody → Eval Value
  | .mk params variadic body _ => do close ⟨params, variadic, body, env⟩ (← act c.globals)

/-- Items of a table from index `next` on. -/
def fill (table : Value) (next : Nat) : List Value → Eval Unit
  | [] => return
  | v :: rest => do
    act (setIndex table (.int (Int64.ofNat next)) v)
    fill table (next + 1) rest

mutual

/-- One value, but of calls and `...` as many as wanted. Operands are evaluated from left to right. -/
def Expr.eval (c : Context) (env : Bindings) (want : Want) : Expr → Eval (List Value)
  | .nil _ => return [.nil]
  | .bool b _ => return [.bool b]
  | .int i _ => return [.int i]
  | .float x _ => return [.ofFloat x]
  | .string s _ => return [← act (bytesValue s)]
  | .varargs _ => return adjusted c.varargs want.count?
  | .name name _ => return [← c.load env name]
  | .index object key _ => do
    let o ← one (object.eval c env (.exactly 1))
    let k ← one (key.eval c env (.exactly 1))
    return [← act (index o k)]
  | .call callee args _ => do
    let f ← one (callee.eval c env (.exactly 1))
    c.call f (← evalExprs c env .all args) want.count?
  | .method object name args _ => do
    let o ← one (object.eval c env (.exactly 1))
    let f ← act (do index o (← textValue name))
    c.call f (o :: (← evalExprs c env .all args)) want.count?
  | .function body => return [← body.eval c env]
  | .table fields _ => do
    let t ← act newTable
    evalFields c env t 1 fields
    return [t]
  | .binary op lhs rhs _ => do
    let a ← one (lhs.eval c env (.exactly 1))
    if op.settles a then return [a]
    let b ← one (rhs.eval c env (.exactly 1))
    return [← act (op.apply a b)]
  | .unary op operand _ => do
    let v ← one (operand.eval c env (.exactly 1))
    return [← act (op.apply v)]
  | .paren inner _ => return [← one (inner.eval c env (.exactly 1))]

/-- One value of each expression, but of the last one what is wanted beyond the others. -/
def evalExprs (c : Context) (env : Bindings) (want : Want) : List Expr → Eval (List Value)
  | [] => return []
  | e :: rest => do
    if rest.isEmpty && e.isMulti then e.eval c env want
    else
      let v ← one (e.eval c env (.exactly 1))
      return v :: (← evalExprs c env want.less rest)

/-- Fields of a table, items from index `next` on. -/
def evalFields (c : Context) (env : Bindings) (table : Value) (next : Nat) : List Field → Eval Unit
  | [] => return
  | .item value :: rest => do
    if rest.isEmpty && value.isMulti then fill table next (← value.eval c env .all)
    else
      let v ← one (value.eval c env (.exactly 1))
      act (setIndex table (.int (Int64.ofNat next)) v)
      evalFields c env table (next + 1) rest
  | .entry key value :: rest => do
    let k ← one (key.eval c env (.exactly 1))
    let v ← one (value.eval c env (.exactly 1))
    act (setIndex table k v)
    evalFields c env table next rest

end

/-- The value of an expression. -/
def Expr.evalOne (c : Context) (env : Bindings) (e : Expr) : Eval Value :=
  one (e.eval c env (.exactly 1))

/-- A value is stored. The object and the key are evaluated before, if the target has them. -/
def Expr.assign (c : Context) (env : Bindings) (v : Value) : Expr → Eval Unit
  | .name first _ => c.store env first v
  | .index object key _ => do
    let o ← object.evalOne c env
    let k ← key.evalOne c env
    act (setIndex o k v)
  | _ => return

/-- Values are stored in the targets, the last first. -/
def assignAll (c : Context) (env : Bindings) : List Expr → List Value → Eval Unit
  | [], _ => return
  | target :: rest, values => do
    assignAll c env rest values.tail
    target.assign c env (values.headD .nil)

/-- What lies under the keys, one in the other. -/
def followPath (v : Value) : List String → Eval Value
  | [] => return v
  | key :: rest => do followPath (← act (do index v (← textValue key))) rest

/-- A function is stored under its name. -/
def FunctionName.assign (c : Context) (env : Bindings) (f : Value) (name : FunctionName) : Eval Unit :=
  let path := name.fields ++ name.method.toList
  match path.getLast? with
  | none => c.store env name.first f
  | some last => do
    let object ← followPath (← c.load env name.first) path.dropLast
    act (do setIndex object (← textValue last) f)

/-- A step of a numeric loop; it is one if none is given. -/
def evalStep (c : Context) (env : Bindings) : Option Expr → Eval Value
  | some step => step.evalOne c env
  | none => return .int 1

/-- A round of a numeric loop with a new variable for the body, which gets the counter. -/
def numericRound (cells : LoopCells) (body : Nat → Eval Flow) : Eval (Option Flow) := do
  if !loopGoes (← get).machine.heap cells then return some .next
  let cell ← fresh (← content cells.counter)
  match ← body cell with
  | .next =>
    act (advanceLoop cells)
    return none
  | flow => return some flow.caught

/-- New variables with these values, made from the last to the first. -/
def newBindings (env : Bindings) (names : List String) (values : List Value) : Eval Bindings := do
  let cells ← values.reverse.mapM fresh
  return (names.zip cells.reverse).reverse ++ env

mutual

def Block.eval (c : Context) (env : Bindings) : Block → Eval Flow
  | .mk stmts _ => return (← evalStmts c env stmts).2

/-- Statements up to the first that does not end with `next`, with the variables in scope then. -/
def evalStmts (c : Context) (env : Bindings) : List Stmt → Eval (Bindings × Flow)
  | [] => return (env, .next)
  | stmt :: rest => do
    let (env, flow) ← stmt.eval c env
    match flow with
    | .next => evalStmts c env rest
    | flow => return (env, flow)

/-- A local comes into scope behind its values, a local function before its body, and the locals of a
`repeat` block stay for the condition. A numeric loop counts in three variables of its own. -/
def Stmt.eval (c : Context) (env : Bindings) : Stmt → Eval (Bindings × Flow)
  | .declare names values _ => do
    let want := .exactly names.length
    let values ← adjust want (evalExprs c env want values)
    return (← newBindings env names values, .next)
  | .declareFunction name body _ => do
    let cell ← fresh .nil
    store cell (← body.eval c ((name, cell) :: env))
    return ((name, cell) :: env, .next)
  | .defineFunction name body _ => do
    name.assign c env (← body.eval c env)
    return (env, .next)
  | .assign targets values _ => do
    let want := .exactly targets.length
    assignAll c env targets (← adjust want (evalExprs c env want values))
    return (env, .next)
  | .call call => do
    let _ ← call.eval c env (.exactly 0)
    return (env, .next)
  | .block body => return (env, ← body.eval c env)
  | .whileLoop cond body _ => do
    let flow ← rounds c.rounds do
      if (← cond.evalOne c env).isFalsey then return some .next
      match ← body.eval c env with
      | .next => return none
      | flow => return some flow.caught
    return (env, flow)
  | .repeatLoop (.mk stmts _) cond _ => do
    let flow ← rounds c.rounds do
      match ← evalStmts c env stmts with
      | (env, .next) => return if (← cond.evalOne c env).isFalsey then none else some .next
      | (_, flow) => return some flow.caught
    return (env, flow)
  | .branch branches otherwise _ => do
    match ← evalBranches c env branches with
    | some flow => return (env, flow)
    | none => return (env, ← evalOtherwise c env otherwise)
  | .numericFor var start limit step body _ => do
    let start ← start.evalOne c env
    let limit ← limit.evalOne c env
    let step ← fresh (← evalStep c env step)
    let limit ← fresh limit
    let counter ← fresh start
    let env' := ("(for step)", step) :: ("(for limit)", limit) :: ("(for index)", counter) :: env
    act (prepareLoop ⟨counter, limit, step⟩)
    let flow ← rounds c.rounds <|
      numericRound ⟨counter, limit, step⟩ fun cell ↦ body.eval c ((var, cell) :: env')
    return (env, flow)
  -- the compiler refuses it
  | .genericFor .. => raise .operand
  | .returnValues values _ => return (env, .ret (← evalExprs c env .all values))
  | .breakLoop _ => return (env, .exit)

/-- How the first branch ends whose condition holds, if there is one. -/
def evalBranches (c : Context) (env : Bindings) : List Branch → Eval (Option Flow)
  | [] => return none
  | .mk cond body :: rest => do
    if (← cond.evalOne c env).isFalsey then evalBranches c env rest
    else return some (← body.eval c env)

def evalOtherwise (c : Context) (env : Bindings) : Option Block → Eval Flow
  | some block => block.eval c env
  | none => return .next

end

section

variable (c : Context) (env : Bindings) (pos : Position)

theorem Stmt.eval_declare (names : List String) (values : List Expr) :
    (declare names values pos).eval c env = (do
      let want := .exactly names.length
      let values ← adjust want (evalExprs c env want values)
      return (← newBindings env names values, .next)) := rfl

theorem Stmt.eval_declareFunction (name : String) (body : FunctionBody) :
    (declareFunction name body pos).eval c env = (do
      let cell ← fresh .nil
      store cell (← body.eval c ((name, cell) :: env))
      return ((name, cell) :: env, .next)) := rfl

theorem Stmt.eval_defineFunction (name : FunctionName) (body : FunctionBody) :
    (defineFunction name body pos).eval c env = (do
      name.assign c env (← body.eval c env)
      return (env, .next)) := rfl

theorem Stmt.eval_assign (targets values : List Expr) :
    (assign targets values pos).eval c env = (do
      let want := .exactly targets.length
      assignAll c env targets (← adjust want (evalExprs c env want values))
      return (env, .next)) := rfl

theorem Stmt.eval_call (call : Expr) :
    (Stmt.call call).eval c env = (do
      let _ ← call.eval c env (.exactly 0)
      return (env, .next)) := rfl

theorem Stmt.eval_returnValues (values : List Expr) :
    (returnValues values pos).eval c env = (do return (env, .ret (← evalExprs c env .all values))) := rfl

end

end MiniLua
