import MiniLua.Memory.Heap
import MiniLua.Syntax.Tree

/-!
What a function's text does with variables, in the order in which its code does it, each time with
the variables in scope there. Functions in the text are not entered.
-/

namespace MiniLua

/-- A variable of a function: its name, and how many others the function declares before it. -/
structure Variable where
  name : String
  serial : Nat
deriving DecidableEq, Repr

/-- The variables of one function in scope, the last declared first. -/
abbrev Scope := List Variable

/-- The innermost variable of a name. -/
def Scope.find (scope : Scope) (name : String) : Option Variable :=
  List.find? (fun v ↦ v.name == name) scope

inductive Mention
  /-- A variable that was declared gets its first value. -/
  | bind (v : Variable)
  | read (name : String)
  | write (name : String)
  /-- A function is made. -/
  | make (body : FunctionBody)

structure Occurrence where
  scope : Scope
  mention : Mention

/-- How far a function's text was read: what is in scope, what was met, and how many variables were
declared. -/
structure Walk where
  scope : Scope
  seen : List Occurrence
  declared : Nat

namespace Walk

def note (w : Walk) (m : Mention) : Walk := { w with seen := w.seen ++ [⟨w.scope, m⟩] }

/-- From now on the name stands for a new variable. -/
def declare (w : Walk) (name : String) : Walk :=
  { w with scope := ⟨name, w.declared⟩ :: w.scope, declared := w.declared + 1 }

def declareAll (w : Walk) (names : List String) : Walk := names.foldl declare w

/-- The variables get their values, the first of the list first. -/
def bindAll (w : Walk) (vs : List Variable) : Walk := vs.foldl (fun w v ↦ w.note (.bind v)) w

/-- The `n` variables declared last get their values, the last first. -/
def bindLast (w : Walk) (n : Nat) : Walk := w.bindAll (w.scope.take n)

/-- What was declared since `outer` is no longer in scope. -/
def leave (w outer : Walk) : Walk := { w with scope := outer.scope }

/-- A function begins with its parameters in scope, which have their values. -/
def start (params : List String) : Walk := Walk.declareAll ⟨[], [], 0⟩ params

end Walk

mutual

def Expr.walk (w : Walk) : Expr → Walk
  | .nil _ | .bool .. | .int .. | .float .. | .string .. | .varargs _ => w
  | .name name _ => w.note (.read name)
  | .index object key _ => key.walk (object.walk w)
  | .call callee args _ => walkExprs (callee.walk w) args
  | .method object _ args _ => walkExprs (object.walk w) args
  | .function body => w.note (.make body)
  | .table fields _ => walkFields w fields
  | .binary _ lhs rhs _ => rhs.walk (lhs.walk w)
  | .unary _ operand _ => operand.walk w
  | .paren inner _ => inner.walk w

def walkExprs (w : Walk) : List Expr → Walk
  | [] => w
  | e :: rest => walkExprs (e.walk w) rest

def walkFields (w : Walk) : List Field → Walk
  | [] => w
  | .item value :: rest => walkFields (value.walk w) rest
  | .entry key value :: rest => walkFields (value.walk (key.walk w)) rest

end

/-- A `function` statement stores into its first name only if that is the whole path. -/
def FunctionName.mention (name : FunctionName) : Mention :=
  match name.fields ++ name.method.toList with
  | [] => .write name.first
  | _ :: _ => .read name.first

/-- What is stored into. -/
def Expr.walkTarget (w : Walk) : Expr → Walk
  | .name first _ => w.note (.write first)
  | .index object key _ => key.walk (object.walk w)
  | _ => w

/-- Targets are stored into from the last to the first. -/
def walkTargets (w : Walk) : List Expr → Walk
  | [] => w
  | target :: rest => target.walkTarget (walkTargets w rest)

def walkStep (w : Walk) : Option Expr → Walk
  | some step => step.walk w
  | none => w

mutual

def Block.walk (w : Walk) : Block → Walk
  | .mk stmts _ => (walkStmts w stmts).leave w

def walkStmts (w : Walk) : List Stmt → Walk
  | [] => w
  | stmt :: rest => walkStmts (stmt.walk w) rest

/-- A local comes into scope behind its values, a local function before its body, and the locals of
a `repeat` block stay for the condition. A numeric loop counts in three variables of its own, which
no program can name, and gives the counter to a new variable in each round. -/
def Stmt.walk (w : Walk) : Stmt → Walk
  | .declare names values _ => ((walkExprs w values).declareAll names).bindLast names.length
  | .declareFunction name body _ =>
    (((w.declare name).bindLast 1).note (.make body)).note (.write name)
  | .defineFunction name body _ => (w.note (.make body)).note name.mention
  | .assign targets values _ => walkTargets (walkExprs w values) targets
  | .call call => call.walk w
  | .block body => body.walk w
  | .whileLoop cond body _ => body.walk (cond.walk w)
  | .repeatLoop (.mk stmts _) cond _ => (cond.walk (walkStmts w stmts)).leave w
  | .branch branches otherwise _ => walkOtherwise (walkBranches w branches) otherwise
  | .numericFor var start limit step body _ =>
    let counting := ((walkStep (limit.walk (start.walk w)) step).declareAll
      ["(for index)", "(for limit)", "(for step)"]).bindLast 3
    (body.walk (((counting.note (.read "(for index)")).declare var).bindLast 1)).leave w
  | .genericFor .. => w
  | .returnValues values _ => walkExprs w values
  | .breakLoop _ => w

def walkOtherwise (w : Walk) : Option Block → Walk
  | some block => block.walk w
  | none => w

def walkBranches (w : Walk) : List Branch → Walk
  | [] => w
  | .mk cond body :: rest => walkBranches (body.walk (cond.walk w)) rest

end

/-- What the body of a function with these parameters does with variables. -/
def occurrences (params : List String) (body : Block) : List Occurrence :=
  (body.walk (.start params)).seen

/-!
What it means that a prototype has the variables of a function's text. The instructions that reach
variables or make functions do so in order, each what the text does there.
-/

/-- Whether instructions of the opcode reach variables or make functions. -/
def Opcode.touches : Opcode → Bool
  | .getCell | .setCell | .newCell | .getUpvalue | .setUpvalue | .getGlobal | .setGlobal
  | .closure => true
  | _ => false

def Instruction.touches (i : Instruction) : Bool := i.opcode?.any Opcode.touches

/-- A function around another, as it is where the other is made: what is in scope, the slots of its
variables in the order of their declarations, and what it captures. -/
structure Around where
  scope : Scope
  slots : List Nat
  captures : Array Capture

/-- Where the descriptor of an upvalue leads: how many functions further out, and to which slot of
that one. -/
def follow (captures : Array Capture) : List Around → Nat → Option (Nat × Nat)
  | [], _ => none
  | around :: outer, i =>
    match captures[i]? with
    | some (.cell slot) => some (0, slot)
    | some (.upvalue j) => (follow around.captures outer j).map fun (up, slot) ↦ (up + 1, slot)
    | none => none

/-- The innermost variable of a name in the functions around, and how many functions further out it
is declared. -/
def findAround (name : String) : List Around → Option (Nat × Variable)
  | [] => none
  | around :: outer =>
    match around.scope.find name with
    | some v => some (0, v)
    | none => (findAround name outer).map fun (up, v) ↦ (up + 1, v)

/-- Upvalue `i` leads to the variable `v`, which is in scope in the function `up` further out. -/
def IsUpvalue (captures : Array Capture) (outer : List Around) (i up : Nat) (v : Variable) : Prop :=
  ∃ around slot, outer[up]? = some around ∧ v ∈ around.scope ∧
    around.slots[v.serial]? = some slot ∧ follow captures outer i = some (up, slot)

/-- The opcodes that reach a variable in the three ways there are. -/
structure Route where
  cell : Opcode
  upvalue : Opcode
  global : Opcode

def Route.load : Route := ⟨.getCell, .getUpvalue, .getGlobal⟩

def Route.store : Route := ⟨.setCell, .setUpvalue, .setGlobal⟩

/-- A prototype among the functions around it, with the slots of its variables in the order of
their declarations. -/
structure Site where
  heap : Heap
  outer : List Around
  proto : Prototype
  slots : List Nat

namespace Site

variable (S : Site)

/-- The site as one around a function that is made there. -/
def around (scope : Scope) : Around := ⟨scope, S.slots, S.proto.captures⟩

/-- The variables have slots of their own, which the prototype has room for. -/
def Apart (scope : Scope) : Prop :=
  (∀ v ∈ scope, ∃ slot < S.proto.cellCount, S.slots[v.serial]? = some slot) ∧
    (scope.map fun v ↦ S.slots[v.serial]?).Nodup

/-- No upvalue leads to two variables. -/
def Unshared : Prop :=
  ∀ i up v up' v', IsUpvalue S.proto.captures S.outer i up v →
    IsUpvalue S.proto.captures S.outer i up' v' → up = up' ∧ v = v'

/-- The instruction reaches the innermost variable of the name, or the global variable if there is
none. -/
def Reaches (scope : Scope) (route : Route) (name : String) (i : Instruction) : Prop :=
  match scope.find name with
  | some v => i.opcode? = some route.cell ∧ S.slots[v.serial]? = some i.x
  | none =>
    match findAround name S.outer with
    | some (up, v) =>
      i.opcode? = some route.upvalue ∧ IsUpvalue S.proto.captures S.outer i.x up v
    | none =>
      i.opcode? = some route.global ∧ ∃ n, S.proto.constants[i.x]? = some (.string n) ∧
        S.heap.bytes? n = some (Bytes.ofText name)

/-- The instruction does with variables what the text does. -/
def Does (scope : Scope) : Mention → Instruction → Prop
  | .bind v, i => i.opcode? = some .newCell ∧ S.slots[v.serial]? = some i.x
  | .read name, i => S.Reaches scope .load name i
  | .write name, i => S.Reaches scope .store name i
  | .make _, _ => False

end Site

mutual

/-- The prototype has the variables of a function with these parameters and this body: the
parameters are in the first slots, and every instruction that reaches a variable or makes a function
does what the text does there. -/
inductive Resolved : Heap → List Around → Prototype → List String → Block → Prop
  | intro {heap : Heap} {outer : List Around} {p : Prototype} {params : List String} {body : Block}
    (slots : List Nat) (arity : p.arity = params.length)
    (parameters : List.range params.length <+: slots)
    (begins : Site.Apart ⟨heap, outer, p, slots⟩ (Walk.start params).scope)
    (apart : ∀ o ∈ occurrences params body, Site.Apart ⟨heap, outer, p, slots⟩ o.scope)
    (unshared : Site.Unshared ⟨heap, outer, p, slots⟩)
    (does : DoesAll ⟨heap, outer, p, slots⟩ (occurrences params body)
      (p.code.toList.filter Instruction.touches)) : Resolved heap outer p params body

/-- The instructions do one after the other what the text does. A function that is made has the
variables of its own text. -/
inductive DoesAll : Site → List Occurrence → List Instruction → Prop
  | nil {S : Site} : DoesAll S [] []
  | access {S : Site} {o : Occurrence} {i : Instruction} {seen : List Occurrence}
    {code : List Instruction} (does : S.Does o.scope o.mention i) (rest : DoesAll S seen code) :
    DoesAll S (o :: seen) (i :: code)
  | make {S : Site} {scope : Scope} {params : List String} {variadic : Bool} {body : Block}
    {pos : Position} {i : Instruction} {x k : Nat} {p : Prototype} {seen : List Occurrence}
    {code : List Instruction} (closure : i.opcode? = some .closure)
    (operand : i.x = x % Instruction.wideLimit) (nested : S.proto.protos[x]? = some k)
    (there : S.heap.protos[k]? = some p)
    (resolved : Resolved S.heap (S.around scope :: S.outer) p params body)
    (rest : DoesAll S seen code) :
    DoesAll S (⟨scope, .make (.mk params variadic body pos)⟩ :: seen) (i :: code)

end

end MiniLua
