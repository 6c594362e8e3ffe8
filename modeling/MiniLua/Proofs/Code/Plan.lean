import MiniLua.Proofs.Code.Layout
import MiniLua.Proofs.Names.Resolved

/-!
Which operands the code of a text is meant to have. Sizes of parts are counted in instructions, so
the place behind a part is known without its code.
-/

namespace MiniLua

/-- What the wide operand of an instruction is meant to say. -/
inductive Aim
  | jump (op : Opcode) (target : Nat)
  /-- A `repeat` loop begins again. -/
  | again (target : Nat)
  | constant (v : Value)
  | text (op : Opcode) (s : Bytes)
  | name (route : Route) (name : String)
  | make (body : FunctionBody)
  /-- Items go into a table from this index on. -/
  | items (first : Nat)

/-- The size of a part of the code and its operands, by the place where the loop around the part is
left to and the place where the part begins. -/
structure Plan where
  size : Nat
  aims : Option Nat → Nat → List (Nat × Aim)

namespace Plan

/-- Instructions of which the wide operand, if there is one, is none of these. -/
def other (n : Nat) : Plan := ⟨n, fun _ _ ↦ []⟩

/-- One instruction. -/
def one (aim : Aim) : Plan := ⟨1, fun _ pc ↦ [(pc, aim)]⟩

def append (a b : Plan) : Plan :=
  ⟨a.size + b.size, fun exit pc ↦ a.aims exit pc ++ b.aims exit (pc + a.size)⟩

instance : Append Plan := ⟨append⟩

/-- A jump that may go over what follows. -/
def skip (op : Opcode) (rest : Plan) : Plan :=
  ⟨1 + rest.size, fun exit pc ↦ (pc, .jump op (pc + 1 + rest.size)) :: rest.aims exit (pc + 1)⟩

/-- A jump over the next `n` instructions. -/
def leap (n : Nat) : Plan := ⟨1, fun _ pc ↦ [(pc, .jump .jump (pc + 1 + n))]⟩

/-- A jump over the last `n` instructions. -/
def back (n : Nat) : Plan := ⟨1, fun _ pc ↦ [(pc, .jump .jump (pc - n))]⟩

/-- A loop is left to its end. -/
def loop (inside : Plan) : Plan :=
  ⟨inside.size, fun _ pc ↦ inside.aims (some (pc + inside.size)) pc⟩

/-- Code that is run until its last value is true. -/
def again (inside : Plan) : Plan :=
  inside ++ ⟨1, fun _ pc ↦ [(pc, .again (pc - inside.size))]⟩

/-- A jump to where the loop around is left to. -/
def leave : Plan := ⟨1, fun exit pc ↦ exit.toList.map fun target ↦ (pc, .jump .jump target)⟩

/-- A loop with a condition in front. -/
def whilst (cond body : Plan) : Plan :=
  cond ++ skip .jumpIfFalse (loop (body ++ back (cond.size + 1 + body.size)))

end Plan

/-- `n` values, as many at a time as an operand can say. -/
def repeatedSize (n : Nat) : Nat := (n + 254) / 255

/-- What brings `pushed` values to the wanted number. -/
def adjustSize (pushed : Nat) : Want → Nat
  | .all => 0
  | .exactly n => repeatedSize (n - pushed) + repeatedSize (pushed - n)

mutual

def Expr.plan : Expr → Plan
  | .nil _ | .bool .. | .varargs _ => .other 1
  | .int i _ => .one (.constant (.int i))
  | .float x _ => .one (.constant (.ofFloat x))
  | .string s _ => .one (.text .loadConst s)
  | .name name _ => .one (.name .load name)
  | .index object key _ => object.plan ++ key.plan ++ .other 1
  | .call callee args _ => callee.plan ++ planExprs .all 0 args ++ .other 1
  | .method object name args _ =>
    object.plan ++ .one (.text .self (Bytes.ofText name)) ++ planExprs .all 0 args ++ .other 1
  | .function body => .one (.make body)
  | .table fields _ => .other 1 ++ planFields 1 fields
  | .binary o lhs rhs _ =>
    match o.opcode? with
    | some _ => lhs.plan ++ rhs.plan ++ .other 1
    | none => lhs.plan ++ .skip o.shortcut rhs.plan
  | .unary o operand _ =>
    match negatedLiteral? o operand with
    | some v => .one (.constant v)
    | none => operand.plan ++ .other 1
  | .paren inner _ => inner.plan

def planExprs (want : Want) (pushed : Nat) : List Expr → Plan
  | [] => .other (adjustSize pushed want)
  | e :: rest =>
    if rest.isEmpty && e.isMulti then
      match want with
      | .all => e.plan
      | .exactly n => e.plan ++ .other (adjustSize (pushed + (n - pushed)) want)
    else e.plan ++ planExprs want (pushed + 1) rest

def planFields (next : Nat) : List Field → Plan
  | [] => .other 0
  | .item value :: rest =>
    if rest.isEmpty && value.isMulti then value.plan ++ .one (.items next)
    else
      .one (.constant (.int (Int64.ofNat next))) ++ value.plan ++ .other 1 ++
        planFields (next + 1) rest
  | .entry key value :: rest => key.plan ++ value.plan ++ .other 1 ++ planFields next rest

end

def planPath : List String → Plan
  | [] => .other 0
  | key :: keys => .one (.text .loadConst (Bytes.ofText key)) ++ .other 1 ++ planPath keys

def FunctionName.plan (name : FunctionName) : Plan :=
  match (name.fields ++ name.method.toList).getLast? with
  | none => .one (.name .store name.first)
  | some last =>
    .one (.name .load name.first) ++ planPath (name.fields ++ name.method.toList).dropLast ++
      .one (.text .loadConst (Bytes.ofText last)) ++ .other 1

def Expr.planTarget : Expr → Plan
  | .name first _ => .one (.name .store first)
  | .index object key _ => object.plan ++ key.plan ++ .other 1
  | _ => .other 0

def planTargets : List Expr → Plan
  | [] => .other 0
  | target :: rest => planTargets rest ++ target.planTarget

def planStep : Option Expr → Plan
  | some step => step.plan
  | none => .one (.constant (.int 1))

mutual

def Block.plan : Block → Plan
  | .mk stmts _ => planStmts stmts

def planStmts : List Stmt → Plan
  | [] => .other 0
  | stmt :: rest => stmt.plan ++ planStmts rest

def Stmt.plan : Stmt → Plan
  | .declare names values _ => planExprs (.exactly names.length) 0 values ++ .other names.length
  | .declareFunction _ body _ => .other 2 ++ .one (.make body) ++ .other 1
  | .defineFunction name body _ => .one (.make body) ++ name.plan
  | .assign targets values _ => planExprs (.exactly targets.length) 0 values ++ planTargets targets
  | .call call => call.plan
  | .block body => body.plan
  | .whileLoop cond body _ => .whilst cond.plan body.plan
  | .repeatLoop (.mk stmts _) cond _ => .loop (.again (planStmts stmts ++ cond.plan))
  | .branch branches otherwise _ =>
    planBranches otherwise.isSome (planOtherwise otherwise).size branches ++ planOtherwise otherwise
  | .numericFor _ start limit step body _ =>
    start.plan ++ limit.plan ++ planStep step ++ .other 4 ++
      .whilst (.other 1) (.other 2 ++ body.plan ++ .other 1)
  | .genericFor .. => .other 0
  | .returnValues values _ => planExprs .all 0 values ++ .other 1
  | .breakLoop _ => .leave

def planOtherwise : Option Block → Plan
  | some block => block.plan
  | none => .other 0

/-- Each branch but the last goes over the rest of the statement, of which `after` instructions
follow the branches. -/
def planBranches (more : Bool) (after : Nat) : List Branch → Plan
  | [] => .other 0
  | .mk cond body :: rest =>
    let others := planBranches more after rest
    let exit := if rest.isEmpty && !more then .other 0 else .leap (others.size + after)
    cond.plan ++ .skip .jumpIfFalse (body.plan ++ exit) ++ others

end

mutual

/-- The code has the operands that a function of this body is meant to have. -/
inductive Follows (heap : Heap) : Prototype → Block → Prop
  | intro {p : Prototype} {body : Block} (size : p.code.size = body.plan.size + 1)
    (serves : ∀ a ∈ body.plan.aims none 0, Serves heap p a.1 a.2) : Follows heap p body

/-- The instruction has the operand that it is meant to have, but where a `repeat` loop begins again,
a function is made or a table gets an open number of items it may be reduced to its 24 bits. -/
inductive Serves (heap : Heap) : Prototype → Nat → Aim → Prop
  | jump {p : Prototype} {pc : Nat} {i : Instruction} {op : Opcode} {target : Nat}
    (there : p.code[pc]? = some i) (opcode : i.opcode? = some op) (operand : i.x = target) :
    Serves heap p pc (.jump op target)
  | again {p : Prototype} {pc : Nat} {i : Instruction} {target : Nat}
    (there : p.code[pc]? = some i) (opcode : i.opcode? = some .jumpIfFalse)
    (operand : i.x = target % Instruction.wideLimit) : Serves heap p pc (.again target)
  | constant {p : Prototype} {pc : Nat} {i : Instruction} {v : Value}
    (there : p.code[pc]? = some i) (opcode : i.opcode? = some .loadConst)
    (operand : p.constants[i.x]? = some v) : Serves heap p pc (.constant v)
  | text {p : Prototype} {pc : Nat} {i : Instruction} {op : Opcode} {n : Nat} {s : Bytes}
    (there : p.code[pc]? = some i) (opcode : i.opcode? = some op)
    (operand : p.constants[i.x]? = some (.string n)) (spelled : heap.bytes? n = some s) :
    Serves heap p pc (.text op s)
  | local {p : Prototype} {pc : Nat} {i : Instruction} {route : Route} {name : String}
    (there : p.code[pc]? = some i)
    (opcode : i.opcode? = some route.cell ∨ i.opcode? = some route.upvalue) :
    Serves heap p pc (.name route name)
  | global {p : Prototype} {pc : Nat} {i : Instruction} {route : Route} {name : String} {n : Nat}
    (there : p.code[pc]? = some i) (opcode : i.opcode? = some route.global)
    (operand : p.constants[i.x]? = some (.string n))
    (spelled : heap.bytes? n = some (Bytes.ofText name)) : Serves heap p pc (.name route name)
  | make {p q : Prototype} {pc : Nat} {i : Instruction} {index k : Nat} {params : List String}
    {variadic : Bool} {body : Block} {pos : Position} (there : p.code[pc]? = some i)
    (opcode : i.opcode? = some .closure) (operand : i.x = index % Instruction.wideLimit)
    (nested : p.protos[index]? = some k) (found : heap.protos[k]? = some q)
    (follows : Follows heap q body) : Serves heap p pc (.make (.mk params variadic body pos))
  | items {p : Prototype} {pc : Nat} {i : Instruction} {first : Nat}
    (there : p.code[pc]? = some i) (opcode : i.opcode? = some .setList)
    (operand : i.x = first % Instruction.wideLimit) : Serves heap p pc (.items first)

end

end MiniLua
