import MiniLua.Code.OfTree

/-!
Where the code of a syntax tree lies in a finished function. Every relation is between the place
where a part of the tree begins and the place behind it.
-/

namespace MiniLua

/-- The cell slot of the innermost local of a name. -/
def resolve? (locals : List Local) (name : String) : Option Nat :=
  (locals.find? fun l ↦ l.name == name).map Local.cell

/-- A function around another: the locals in scope where that one is made, and the captures it has
in the end. -/
structure Level where
  locals : List Local
  captures : Array Capture

/-- A capture that leads to the variable `name` of the functions around. -/
def Captured (captures : Array Capture) : List Level → String → Nat → Prop
  | [], _, _ => False
  | level :: outer, name, i =>
    match resolve? level.locals name with
    | some cell => captures[i]? = some (.cell cell)
    | none => ∃ j, captures[i]? = some (.upvalue j) ∧ Captured level.captures outer name j

/-- A finished function among those around it, innermost first. `exit` is where the innermost loop
is left to. -/
structure Home where
  proto : Prototype
  heap : Heap
  outer : List Level
  exit : Option Nat

namespace Home

variable (U : Home)

/-- One instruction with what is known of its operands. -/
def Has (op : Opcode) (operands : Instruction → Prop) (pc pc' : Nat) : Prop :=
  pc' = pc + 1 ∧ ∃ i, U.proto.code[pc]? = some i ∧ i.opcode? = some op ∧ operands i

def Plain (op : Opcode) (pc pc' : Nat) : Prop := U.Has op (fun _ ↦ True) pc pc'

def Narrow (op : Opcode) (a : Nat) (pc pc' : Nat) : Prop := U.Has op (·.a.toNat = a) pc pc'

def Wide (op : Opcode) (x : Nat) (pc pc' : Nat) : Prop := U.Has op (·.x = x) pc pc'

/-- Constant `k` is the string. -/
def Text (s : Bytes) (k : Nat) : Prop :=
  ∃ n, U.proto.constants[k]? = some (.string n) ∧ U.heap.bytes? n = some s

def LoadAt (v : Value) (pc pc' : Nat) : Prop :=
  ∃ k, U.proto.constants[k]? = some v ∧ U.Wide .loadConst k pc pc'

def LoadTextAt (s : Bytes) (pc pc' : Nat) : Prop := ∃ k, U.Text s k ∧ U.Wide .loadConst k pc pc'

/-- What a name denotes among these locals. -/
def Names (locals : List Local) (name : String) : Binding → Prop
  | .cell n => resolve? locals name = some n
  | .upvalue n => resolve? locals name = none ∧ Captured U.proto.captures U.outer name n
  | .global => resolve? locals name = none ∧ ∀ level ∈ U.outer, resolve? level.locals name = none

/-- An access to a variable. -/
def NameAt (locals : List Local) (name : String) (onCell onUpvalue onGlobal : Opcode)
    (pc pc' : Nat) : Prop :=
  ∃ b, U.Names locals name b ∧
    match b with
    | .cell n => U.Wide onCell n pc pc'
    | .upvalue n => U.Wide onUpvalue n pc pc'
    | .global => ∃ k, U.Text (Bytes.ofText name) k ∧ U.Wide onGlobal k pc pc'

def LoadNameAt (locals : List Local) (name : String) : Nat → Nat → Prop :=
  U.NameAt locals name .getCell .getUpvalue .getGlobal

def StoreNameAt (locals : List Local) (name : String) : Nat → Nat → Prop :=
  U.NameAt locals name .setCell .setUpvalue .setGlobal

/-- `op` for `n` values. -/
def RepeatedAt (op : Opcode) : Nat → Nat → Nat → Nat → Prop
  | 0, _, pc, pc' => pc' = pc
  | bound + 1, n, pc, pc' =>
    if n = 0 then pc' = pc
    else ∃ p, U.Narrow op (min n 255) pc p ∧ RepeatedAt op bound (n - 255) p pc'

/-- `pushed` values are brought to the wanted number `n`. -/
def AdjustAt (pushed : Nat) (want : Want) (pc pc' n : Nat) : Prop :=
  match want with
  | .all => n = pushed ∧ pc' = pc
  | .exactly m =>
    n = m ∧
      if pushed < m then U.RepeatedAt .loadNil (m - pushed) (m - pushed) pc pc'
      else U.RepeatedAt .pop (pushed - m) (pushed - m) pc pc'

/-- The operand that says how many results are wanted. -/
def Asks (want : Want) (n : Nat) : Prop :=
  match want with
  | .all => n = 0
  | .exactly m => m < 255 ∧ n = m + 1

def CallAt (args : Nat) (multi : Bool) (want : Want) (pc pc' : Nat) : Prop :=
  U.Has .call (fun i ↦ i.a.toNat = args ∧ (i.b = 0 ↔ multi = false) ∧ Asks want i.c.toNat) pc pc'

def VarargsAt (want : Want) (pc pc' : Nat) : Prop :=
  U.proto.variadic = true ∧ U.Has .varargs (fun i ↦ Asks want i.a.toNat) pc pc'

def ReturnAt (n : Nat) (multi : Bool) (pc pc' : Nat) : Prop :=
  U.Has .ret (fun i ↦ i.a.toNat = n ∧ (i.b = 0 ↔ multi = false)) pc pc'

/-- A local with a cell slot that no other local in scope has. -/
structure Fresh (locals : List Local) (l : Local) : Prop where
  cell_ne : ∀ l' ∈ locals, l'.cell ≠ l.cell
  cell_lt : l.cell < U.proto.cellCount

/-- Locals declared one after the other, with their slots. -/
def Declares : List String → List Nat → List Local → List Local → Prop
  | [], cells, locals, locals' => cells = [] ∧ locals' = locals
  | name :: names, cells, locals, locals' =>
    ∃ l rest, l.name = name ∧ U.Fresh locals l ∧ cells = l.cell :: rest ∧
      Declares names rest (l :: locals) locals'

/-- Values are popped into fresh cells for these slots. -/
def NewCellsAt : List Nat → Nat → Nat → Prop
  | [], pc, pc' => pc' = pc
  | cell :: cells, pc, pc' => ∃ p, U.Wide .newCell cell pc p ∧ NewCellsAt cells p pc'

/-- A value is replaced by what lies under these keys, one in the other. -/
def PathAt : List String → Nat → Nat → Prop
  | [], pc, pc' => pc' = pc
  | key :: keys, pc, pc' =>
    ∃ p q, U.LoadTextAt (Bytes.ofText key) pc p ∧ U.Plain .getIndex p q ∧ PathAt keys q pc'

/-- A function made on the stack is stored under the name. -/
def DefineAt (locals : List Local) (name : FunctionName) (pc pc' : Nat) : Prop :=
  match (name.fields ++ name.method.toList).getLast? with
  | none => U.StoreNameAt locals name.first pc pc'
  | some last =>
    ∃ p q r, U.LoadNameAt locals name.first pc p ∧
      U.PathAt (name.fields ++ name.method.toList).dropLast p q ∧
      U.LoadTextAt (Bytes.ofText last) q r ∧ U.Plain .setIndex r pc'

/-- A capture that can be made where these locals are in scope. -/
def Supplies (locals : List Local) : Capture → Prop
  | .cell n => ∃ l ∈ locals, l.cell = n
  | .upvalue n => n < U.proto.captures.size

/-- The home of the function nested here as `proto`. -/
def inner (locals : List Local) (proto : Prototype) : Home :=
  ⟨proto, U.heap, ⟨locals, U.proto.captures⟩ :: U.outer, none⟩

end Home

/-- The locals of a function that begins. -/
def paramLocals (params : List String) : List Local := (Builder.start "" params false 0).locals

mutual

def Expr.At (U : Home) (locals : List Local) (want : Want) : Expr → Nat → Nat → Prop
  | .nil _, pc, pc' => U.Narrow .loadNil 1 pc pc'
  | .bool true _, pc, pc' => U.Plain .loadTrue pc pc'
  | .bool false _, pc, pc' => U.Plain .loadFalse pc pc'
  | .int i _, pc, pc' => U.LoadAt (.int i) pc pc'
  | .float x _, pc, pc' => U.LoadAt (.ofFloat x) pc pc'
  | .string s _, pc, pc' => U.LoadTextAt s pc pc'
  | .varargs _, pc, pc' => U.VarargsAt want pc pc'
  | .name name _, pc, pc' => U.LoadNameAt locals name pc pc'
  | .index object key _, pc, pc' =>
    ∃ p q, object.At U locals (.exactly 1) pc p ∧ key.At U locals (.exactly 1) p q ∧
      U.Plain .getIndex q pc'
  | .call callee args _, pc, pc' =>
    ∃ p q n multi, callee.At U locals (.exactly 1) pc p ∧
      exprsAt U locals .all 0 args p q n multi ∧ U.CallAt n multi want q pc'
  | .method object name args _, pc, pc' =>
    ∃ p q r k n multi, object.At U locals (.exactly 1) pc p ∧ U.Text (Bytes.ofText name) k ∧
      U.Wide .self k p q ∧ exprsAt U locals .all 0 args q r n multi ∧
      U.CallAt (n + 1) multi want r pc'
  | .function body, pc, pc' => body.At U locals pc pc'
  | .table fields _, pc, pc' =>
    ∃ p, U.Plain .newTable pc p ∧ fieldsAt U locals 1 fields p pc'
  | .binary o lhs rhs _, pc, pc' =>
    match o.opcode? with
    | some code =>
      ∃ p q, lhs.At U locals (.exactly 1) pc p ∧ rhs.At U locals (.exactly 1) p q ∧
        U.Plain code q pc'
    | none =>
      ∃ p q, lhs.At U locals (.exactly 1) pc p ∧ U.Wide o.shortcut pc' p q ∧
        rhs.At U locals (.exactly 1) q pc'
  | .unary o operand _, pc, pc' =>
    match negatedLiteral? o operand with
    | some v => U.LoadAt v pc pc'
    | none => ∃ p, operand.At U locals (.exactly 1) pc p ∧ U.Plain o.opcode p pc'
  | .paren inner _, pc, pc' => inner.At U locals (.exactly 1) pc pc'

/-- The values of expressions after `pushed` others: `n` of them, and an open number if `multi`. -/
def exprsAt (U : Home) (locals : List Local) (want : Want) (pushed : Nat) :
    List Expr → Nat → Nat → Nat → Bool → Prop
  | [], pc, pc', n, multi => U.AdjustAt pushed want pc pc' n ∧ multi = false
  | e :: rest, pc, pc', n, multi =>
    if rest.isEmpty && e.isMulti then
      match want with
      | .all => e.At U locals .all pc pc' ∧ n = pushed ∧ multi = true
      | .exactly m =>
        ∃ p, e.At U locals (.exactly (m - pushed)) pc p ∧
          U.AdjustAt (pushed + (m - pushed)) want p pc' n ∧ multi = false
    else
      ∃ p, e.At U locals (.exactly 1) pc p ∧ exprsAt U locals want (pushed + 1) rest p pc' n multi

def fieldsAt (U : Home) (locals : List Local) (next : Nat) : List Field → Nat → Nat → Prop
  | [], pc, pc' => pc' = pc
  | .item value :: rest, pc, pc' =>
    if rest.isEmpty && value.isMulti then
      ∃ p, value.At U locals .all pc p ∧ U.Wide .setList (next % Instruction.wideLimit) p pc'
    else
      ∃ p q r, U.LoadAt (.int (Int64.ofNat next)) pc p ∧ value.At U locals (.exactly 1) p q ∧
        U.Plain .initIndex q r ∧ fieldsAt U locals (next + 1) rest r pc'
  | .entry key value :: rest, pc, pc' =>
    ∃ p q r, key.At U locals (.exactly 1) pc p ∧ value.At U locals (.exactly 1) p q ∧
      U.Plain .initIndex q r ∧ fieldsAt U locals next rest r pc'

/-- The closure of a function whose own code lies in a prototype nested here. -/
def FunctionBody.At (U : Home) (locals : List Local) : FunctionBody → Nat → Nat → Prop
  | .mk params variadic body _, pc, pc' =>
    ∃ x k proto, U.Wide .closure (x % Instruction.wideLimit) pc pc' ∧
      U.proto.protos[x]? = some k ∧ U.heap.protos[k]? = some proto ∧
      proto.arity = params.length ∧ params.length ≤ 255 ∧ params.length ≤ proto.cellCount ∧
      proto.variadic = variadic ∧ (∀ c ∈ proto.captures, U.Supplies locals c) ∧
      ∃ e, body.At (U.inner locals proto) (paramLocals params) 0 e ∧
        (U.inner locals proto).ReturnAt 0 false e proto.code.size

def Block.At (U : Home) (locals : List Local) : Block → Nat → Nat → Prop
  | .mk stmts _, pc, pc' => ∃ locals', stmtsAt U stmts locals pc locals' pc'

def stmtsAt (U : Home) : List Stmt → List Local → Nat → List Local → Nat → Prop
  | [], locals, pc, locals', pc' => locals' = locals ∧ pc' = pc
  | stmt :: rest, locals, pc, locals', pc' =>
    ∃ between p, stmt.At U locals pc between p ∧ stmtsAt U rest between p locals' pc'

def Stmt.At (U : Home) : Stmt → List Local → Nat → List Local → Nat → Prop
  | .declare names values _, locals, pc, locals', pc' =>
    ∃ p n multi cells, exprsAt U locals (.exactly names.length) 0 values pc p n multi ∧
      U.Declares names cells locals locals' ∧ U.NewCellsAt cells.reverse p pc'
  | .declareFunction name body _, locals, pc, locals', pc' =>
    ∃ l p q r, l.name = name ∧ U.Fresh locals l ∧ locals' = l :: locals ∧
      U.Narrow .loadNil 1 pc p ∧ U.Wide .newCell l.cell p q ∧ body.At U (l :: locals) q r ∧
      U.Wide .setCell l.cell r pc'
  | .defineFunction name body _, locals, pc, locals', pc' =>
    locals' = locals ∧ ∃ p, body.At U locals pc p ∧ U.DefineAt locals name p pc'
  | .assign targets values _, locals, pc, locals', pc' =>
    locals' = locals ∧ ∃ p n multi,
      exprsAt U locals (.exactly targets.length) 0 values pc p n multi ∧
      targetsAt U locals targets p pc'
  | .call call, locals, pc, locals', pc' =>
    locals' = locals ∧ call.isCall = true ∧ call.At U locals (.exactly 0) pc pc'
  | .block body, locals, pc, locals', pc' => locals' = locals ∧ body.At U locals pc pc'
  | .whileLoop cond body _, locals, pc, locals', pc' =>
    locals' = locals ∧ ∃ p q r, cond.At U locals (.exactly 1) pc p ∧
      U.Wide .jumpIfFalse pc' p q ∧ body.At { U with exit := some pc' } locals q r ∧
      U.Wide .jump (pc % Instruction.wideLimit) r pc'
  | .repeatLoop (.mk stmts _) cond _, locals, pc, locals', pc' =>
    locals' = locals ∧ ∃ inside p q, stmtsAt { U with exit := some pc' } stmts locals pc inside p ∧
      cond.At { U with exit := some pc' } inside (.exactly 1) p q ∧
      U.Wide .jumpIfFalse (pc % Instruction.wideLimit) q pc'
  | .branch branches otherwise _, locals, pc, locals', pc' =>
    locals' = locals ∧ ∃ p, branchesAt U locals pc' otherwise.isSome branches pc p ∧
      otherwiseAt U locals otherwise p pc'
  | .numericFor var start limit step body _, locals, pc, locals', pc' =>
    locals' = locals ∧ ∃ counter limitCell stepCell l,
      counter.name = "(for index)" ∧ limitCell.name = "(for limit)" ∧
      stepCell.name = "(for step)" ∧ l.name = var ∧
      limitCell.cell = counter.cell + 1 ∧ stepCell.cell = counter.cell + 2 ∧
      U.Fresh locals counter ∧ U.Fresh (counter :: locals) limitCell ∧
      U.Fresh (limitCell :: counter :: locals) stepCell ∧
      U.Fresh (stepCell :: limitCell :: counter :: locals) l ∧
      ∃ p₁ p₂ p₃ p₄ again test q₁ q₂ r₁ r₂,
        start.At U locals (.exactly 1) pc p₁ ∧ limit.At U locals (.exactly 1) p₁ p₂ ∧
        stepAt U locals step p₂ p₃ ∧
        U.NewCellsAt [stepCell.cell, limitCell.cell, counter.cell] p₃ p₄ ∧
        U.Wide .forPrep counter.cell p₄ again ∧ U.Wide .forTest counter.cell again test ∧
        U.Wide .jumpIfFalse pc' test q₁ ∧ U.Wide .getCell counter.cell q₁ q₂ ∧
        U.Wide .newCell l.cell q₂ r₁ ∧
        body.At { U with exit := some pc' } (l :: stepCell :: limitCell :: counter :: locals)
          r₁ r₂ ∧
        ∃ last, U.Wide .forStep counter.cell r₂ last ∧
          U.Wide .jump (again % Instruction.wideLimit) last pc'
  | .genericFor .., _, _, _, _ => False
  | .returnValues values _, locals, pc, locals', pc' =>
    locals' = locals ∧ ∃ p n multi, exprsAt U locals .all 0 values pc p n multi ∧
      U.ReturnAt n multi p pc'
  | .breakLoop _, locals, pc, locals', pc' =>
    locals' = locals ∧ ∃ exit, U.exit = some exit ∧ U.Wide .jump exit pc pc'

def stepAt (U : Home) (locals : List Local) : Option Expr → Nat → Nat → Prop
  | some step, pc, pc' => step.At U locals (.exactly 1) pc pc'
  | none, pc, pc' => U.LoadAt (.int 1) pc pc'

def otherwiseAt (U : Home) (locals : List Local) : Option Block → Nat → Nat → Prop
  | some block, pc, pc' => block.At U locals pc pc'
  | none, pc, pc' => pc' = pc

/-- Branches that go to `ends` unless nothing follows them. -/
def branchesAt (U : Home) (locals : List Local) (ends : Nat) (more : Bool) :
    List Branch → Nat → Nat → Prop
  | [], pc, pc' => pc' = pc
  | .mk cond body :: rest, pc, pc' =>
    ∃ p q r next, cond.At U locals (.exactly 1) pc p ∧ U.Wide .jumpIfFalse next p q ∧
      body.At U locals q r ∧
      (if rest.isEmpty && !more then next = r else U.Wide .jump ends r next) ∧
      branchesAt U locals ends more rest next pc'

/-- Values are popped into the targets, the last target first. -/
def targetsAt (U : Home) (locals : List Local) : List Expr → Nat → Nat → Prop
  | [], pc, pc' => pc' = pc
  | target :: rest, pc, pc' =>
    ∃ p, targetsAt U locals rest pc p ∧ target.TargetAt U locals p pc'

def Expr.TargetAt (U : Home) (locals : List Local) : Expr → Nat → Nat → Prop
  | .name name _, pc, pc' => U.StoreNameAt locals name pc pc'
  | .index object key _, pc, pc' =>
    ∃ p q, object.At U locals (.exactly 1) pc p ∧ key.At U locals (.exactly 1) p q ∧
      U.Plain .setIndex q pc'
  | _, _, _ => False

end

/-- The home of a function with these parameters and this body. -/
structure Home.Runs (U : Home) (params : List String) (variadic : Bool) (body : Block) : Prop where
  arity : U.proto.arity = params.length
  few : params.length ≤ 255
  cells : params.length ≤ U.proto.cellCount
  variadic : U.proto.variadic = variadic
  code : ∃ e, body.At U (paramLocals params) 0 e ∧ U.ReturnAt 0 false e U.proto.code.size

/-- The prototype of a whole chunk. -/
def Chunk.At (heap : Heap) (proto : Prototype) (chunk : Chunk) : Prop :=
  proto.captures = #[] ∧ Home.Runs ⟨proto, heap, [], none⟩ [] true chunk

end MiniLua
