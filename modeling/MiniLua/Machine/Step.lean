import MiniLua.Machine.Native

/-!
Running. A configuration is a state with what is to happen next; a step executes one instruction of
the innermost guest function, or starts or resumes one builtin. An error in guest code ends all
guest functions up to the builtin, or to the host, that entered them.
-/

namespace MiniLua

inductive Mode
  /-- The innermost guest function goes on. -/
  | execute
  /-- The innermost builtin, or the host, makes a call. -/
  | enter (callee : Value) (args : List Value)
  /-- The innermost builtin, or the host, gets the outcome of a call it made. -/
  | deliver (result : Except RuntimeError (List Value))

inductive Transition
  | next (mode : Mode) (state : State)
  | halt (result : Except RuntimeError (List Value)) (state : State)

namespace Machine

/-- Pushes results, as many as expected; all of them are a multi result. -/
def placeResults (results : List Value) : Option Nat → Machine Unit
  | some n => pushAll ((List.range n).map fun i ↦ results.getD i .nil)
  | none => do
    modify fun s ↦ { s with lastMulti := results.length }
    pushAll results

def checkDepth : Machine Unit := do
  let s ← get
  if s.options.maxCallDepth ≤ s.activations.length then throw .stackOverflow

def allocCells (args : List Value) : Nat → Machine (List (Option Nat))
  | 0 => return []
  | n + 1 => do
    let cell ← onHeap fun h ↦ h.allocCell (args.headD .nil)
    return some cell :: (← allocCells args.tail n)

/-- Enters a closure that lies at stack slot `floor` with its arguments above it. -/
def enterClosure (closure floor : Nat) (expected : Option Nat) : Machine Unit := do
  checkDepth
  match (← get).proto? closure with
  | none => throw .noFunction
  | some p =>
    let args := ((← get).stack.extract (floor + 1) (← get).stack.size).toList
    modify fun s ↦ s.truncate floor
    let bound ← allocCells args p.arity
    let unbound := List.replicate (p.cellCount - p.arity) none
    let frame : Frame := {
      closure, ip := 0, base := floor, expected
      cells := (bound ++ unbound).toArray
      varargs := if p.variadic then args.drop p.arity else [] }
    modify fun s ↦ { s with activations := .guest frame :: s.activations }

/-- Starts a builtin that lies at stack slot `floor` with its arguments above it. -/
def enterNative (natives : Array Native) (native floor argCount : Nat) (expected : Option Nat) :
    Machine Native := do
  checkDepth
  match natives[native]? with
  | none => throw .noFunction
  | some n =>
    let call : NativeCall := ⟨native, n.name, floor + 1, argCount, expected, .nothing⟩
    modify fun s ↦ { s with activations := .native call :: s.activations }
    return n

/-- What an instruction asks for beyond its effect on the state. -/
inductive Demand
  | nothing
  | call (argCount : Nat) (expected : Option Nat)
  | ret (results : List Value)

def changeFrame (f : Frame → Frame) : Machine Unit :=
  modify fun s ↦
    match s.activations with
    | .guest frame :: rest => { s with activations := .guest (f frame) :: rest }
    | _ => s

def orOperand (v : Option α) : Machine α :=
  match v with
  | some a => return a
  | none => throw .operand

/-- Continues at `x`. -/
def goTo (x : Nat) : Machine Unit := changeFrame fun f ↦ { f with ip := x }

def frameCell (frame : Frame) (slot : Nat) : Machine Nat := orOperand (frame.cells.getD slot none)

def upvalueCell (frame : Frame) (slot : Nat) : Machine Nat := do
  match (← get).heap.closures[frame.closure]? with
  | some c => orOperand c.upvalues[slot]?
  | none => throw .noFunction

def loadCell (cell : Nat) : Machine Unit := do push ((← get).heap.cell cell)

def storeCell (cell : Nat) : Machine Unit := do
  let v ← pop
  changeHeap fun h ↦ h.setCell cell v

def environment (frame : Frame) : Machine Value := do
  match (← get).heap.closures[frame.closure]? with
  | some c => return .table c.env
  | none => throw .noFunction

/-- The cells a new closure captures. -/
def captured (frame : Frame) (upvalues : Array Nat) (captures : List Capture) :
    Machine (List Nat) :=
  captures.mapM fun
    | .cell n => frameCell frame n
    | .upvalue n => orOperand upvalues[n]?

def makeClosure (frame : Frame) (x : Nat) : Machine Value := do
  match (← get).heap.closures[frame.closure]? with
  | none => throw .noFunction
  | some current =>
    let proto ← orOperand (((← get).heap.protos[current.proto]?).bind fun p ↦ p.protos[x]?)
    match (← get).heap.protos[proto]? with
    | none => throw .noFunction
    | some p =>
      let upvalues ← captured frame current.upvalues p.captures.toList
      return .closure (← onHeap fun h ↦ h.allocClosure ⟨proto, current.env, upvalues.toArray⟩)

/-- The cells of a numeric loop: counter, limit and step. -/
structure LoopCells where
  counter : Nat
  limit : Nat
  step : Nat

def loopCells (frame : Frame) (x : Nat) : Machine LoopCells := do
  return ⟨← frameCell frame x, ← frameCell frame (x + 1), ← frameCell frame (x + 2)⟩

def loopNumber (v : Value) (what : String) : Machine Value := do
  match (← get).heap.number? v with
  | some n => return n
  | none => typeError (.loopNumber what)

/-- Integers stay integers only if all three are. -/
def prepareLoop (cells : LoopCells) : Machine Unit := do
  let h := (← get).heap
  let counter ← loopNumber (h.cell cells.counter) "initial value"
  let limit ← loopNumber (h.cell cells.limit) "limit"
  let step ← loopNumber (h.cell cells.step) "step"
  let store (cell : Nat) (v : Value) : Machine Unit := changeHeap fun h ↦ h.setCell cell v
  match counter, limit, step with
  | .int _, .int _, .int _ =>
    store cells.counter counter
    store cells.limit limit
    store cells.step step
  | _, _, _ =>
    store cells.counter (.ofFloat counter.toFloat)
    store cells.limit (.ofFloat limit.toFloat)
    store cells.step (.ofFloat step.toFloat)

def numberLe : Value → Value → Bool
  | .int i, .int j => i ≤ j
  | a, b => a.toFloat ≤ b.toFloat

def isPositive : Value → Bool
  | .int i => 0 < i
  | v => 0 < v.toFloat

/-- A step that is not positive counts down. -/
def loopGoes (h : Heap) (cells : LoopCells) : Bool :=
  let counter := h.cell cells.counter
  let limit := h.cell cells.limit
  if isPositive (h.cell cells.step) then numberLe counter limit else numberLe limit counter

/-- An integer counter that overflows becomes a float past every limit. -/
def advanceLoop (cells : LoopCells) : Machine Unit :=
  changeHeap fun h ↦
    h.setCell cells.counter
      (Operators.intOrFloat (· + ·) (· + ·) (h.cell cells.counter) (h.cell cells.step))

def binary (op : Opcode) : Machine Unit := do
  let b ← pop
  let a ← pop
  let h := (← get).heap
  let result ←
    match op with
    | .concat => bytesValue (← lift (Operators.concat h a b))
    | .eq => pure (.bool (a.equal b))
    | .ne => pure (.bool (!a.equal b))
    | .lt => .bool <$> lift (Operators.lessThan h a b)
    | .le => .bool <$> lift (Operators.lessEqual h a b)
    | .gt => .bool <$> lift (Operators.lessThan h b a)
    | .ge => .bool <$> lift (Operators.lessEqual h b a)
    | op => lift (Operators.arith h op a b)
  push result

/-- Pops a multi result into the table below it. -/
def fillTable (start : Nat) : Machine Unit := do
  let values ← popMany (← get).lastMulti
  match ← top with
  | .table t =>
    if t < (← get).heap.tables.size then
      changeHeap fun h ↦ h.modifyTable t fun table ↦
        (values.zipIdx start).foldl (fun t (v, i) ↦ t.set (.int (Int64.ofNat i)) v) table
    else throw .operand
  | _ => throw .operand

/-- The operand count of a call or return: `a`, and the last multi result if `b` says so. -/
def operandCount (i : Instruction) : Machine Nat := do
  let multi := (← get).lastMulti
  return i.a.toNat + (if i.b = 0 then 0 else multi)

/-- Keeps the top and continues at `x` if `keep` holds of it, and pops it otherwise. -/
def jumpKeeping (keep : Value → Bool) (x : Nat) : Machine Unit := do
  if keep (← top) then goTo x else discard pop

def perform (frame : Frame) (constants : Array Value) (i : Instruction) (op : Opcode) :
    Machine Demand := do
  match op with
  | .loadNil => pushAll (List.replicate i.a.toNat .nil)
  | .loadTrue => push (.bool true)
  | .loadFalse => push (.bool false)
  | .loadConst => push (← orOperand constants[i.x]?)
  | .getCell => loadCell (← frameCell frame i.x)
  | .setCell => storeCell (← frameCell frame i.x)
  | .newCell =>
    let v ← pop
    let cell ← onHeap fun h ↦ h.allocCell v
    if i.x < frame.cells.size then
      changeFrame fun f ↦ { f with cells := f.cells.setIfInBounds i.x (some cell) }
    else throw .operand
  | .getUpvalue => loadCell (← upvalueCell frame i.x)
  | .setUpvalue => storeCell (← upvalueCell frame i.x)
  | .getGlobal =>
    let key ← orOperand constants[i.x]?
    let env ← environment frame
    push ((← get).heap.rawGet env key)
  | .setGlobal =>
    let key ← orOperand constants[i.x]?
    let env ← environment frame
    setIndex env key (← pop)
  | .getIndex =>
    let key ← pop
    let object ← pop
    push (← index object key)
  | .setIndex =>
    let key ← pop
    let object ← pop
    setIndex object key (← pop)
  | .newTable => push (← newTable)
  | .initIndex =>
    let value ← pop
    let key ← pop
    setIndex (← top) key value
  | .setList => fillTable i.x
  | .self =>
    let key ← orOperand constants[i.x]?
    let object ← pop
    push (← index object key)
    push object
  | .neg => push (← lift (Operators.negate (← get).heap (← pop)))
  | .not => push (.bool (← pop).isFalsey)
  | .len => push (← lift (Operators.length (← get).heap (← pop)))
  | .add | .sub | .mul | .div | .mod | .pow | .concat
  | .eq | .ne | .lt | .le | .gt | .ge => binary op
  | .jump => goTo i.x
  | .jumpIfFalse => if (← pop).isFalsey then goTo i.x
  | .jumpIfFalseKeep => jumpKeeping Value.isFalsey i.x
  | .jumpIfTrueKeep => jumpKeeping Value.isTruthy i.x
  | .pop => discard (popMany i.a.toNat)
  | .forPrep => prepareLoop (← loopCells frame i.x)
  | .forTest => push (.bool (loopGoes (← get).heap (← loopCells frame i.x)))
  | .forStep => advanceLoop (← loopCells frame i.x)
  | .call =>
    let c := i.c.toNat
    return .call (← operandCount i) (if c = 0 then none else some (c - 1))
  | .ret => return .ret (← popMany (← operandCount i))
  | .varargs =>
    let a := i.a.toNat
    placeResults frame.varargs (if a = 0 then none else some (a - 1))
  | .closure => push (← makeClosure frame i.x)
  return .nothing

/-- Executes the next instruction of the innermost guest function; running off the end returns
nothing. -/
def instruction : Machine Demand := do
  match (← get).activations with
  | .guest frame :: _ =>
    match (← get).proto? frame.closure with
    | none => throw .noFunction
    | some p =>
      match p.code[frame.ip]? with
      | none => return .ret []
      | some i =>
        changeFrame fun f ↦ { f with ip := f.ip + 1 }
        match i.opcode? with
        | none => throw (.opcode i.op)
        | some op => perform frame p.constants i op
  | _ => throw .noFunction

end Machine

namespace Transition

/-- Drops the guest functions above the innermost builtin or the host, with all they had on the
stack. -/
def unwind (floor : Nat) : List Activation → Nat × List Activation
  | .guest frame :: rest => unwind frame.base rest
  | activations => (floor, activations)

/-- An error in guest code. -/
def guestError (e : RuntimeError) (s : State) : Transition :=
  let s := s.noteLocation
  let (floor, activations) := unwind s.stack.size s.activations
  .next (.deliver (.error e)) ({ s with activations }.truncate floor)

/-- Hands results to the activation that is innermost now. -/
def giveResults (results : List Value) (expected : Option Nat) (s : State) : Transition :=
  match s.activations with
  | .guest _ :: _ =>
    match Machine.placeResults results expected s with
    | .ok _ s => .next .execute s
    | .error e s => guestError e s
  | _ => .next (.deliver (.ok results)) s

/-- Ends the innermost builtin with an error. -/
def nativeError (e : RuntimeError) (s : State) : Transition :=
  match s.activations with
  | .native call :: rest =>
    let s := { s with activations := rest }
    match rest with
    | .guest _ :: _ => guestError e s
    | _ => .next (.deliver (.error e)) (s.truncate (call.base - 1))
  | _ => .next (.deliver (.error e)) s

/-- Ends the innermost builtin with what is in its window. -/
def nativeResults (s : State) : Transition :=
  match s.activations with
  | .native call :: rest =>
    let results := (s.stack.extract call.base s.stack.size).toList
    giveResults results call.expected ({ s with activations := rest }.truncate (call.base - 1))
  | _ => .next (.deliver (.ok [])) s

def remember (memo : Memo) (s : State) : State :=
  match s.activations with
  | .native call :: rest => { s with activations := .native { call with memo } :: rest }
  | _ => s

/-- Goes on after a builtin started or resumed. -/
def afterNative : EStateM.Result RuntimeError State Outcome → Transition
  | .ok .finished s => nativeResults s
  | .ok (.invoke callee args memo) s => .next (.enter callee args) (remember memo s)
  | .error e s => nativeError e s

/-- Returns from the innermost guest function. -/
def guestReturn (results : List Value) (s : State) : Transition :=
  match s.activations with
  | .guest frame :: rest =>
    giveResults results frame.expected ({ s with activations := rest }.truncate frame.base)
  | _ => .next (.deliver (.error .noFunction)) s

/-- Calls what lies under the top `argCount` values of the stack. -/
def guestCall (natives : Array Native) (argCount : Nat) (expected : Option Nat) (s : State) :
    Transition :=
  if s.stack.size < argCount + 1 then guestError .operand s
  else
    let floor := s.stack.size - (argCount + 1)
    match s.stack.getD floor .nil with
    | .closure c =>
      match Machine.enterClosure c floor expected s with
      | .ok _ s => .next .execute s
      | .error e s => guestError e s
    | .native n =>
      match Machine.enterNative natives n floor argCount expected s with
      | .ok native s => afterNative (native.start s)
      | .error e s => guestError e s
    | v => guestError (.type (.call v.typeName)) s

/-- Makes a call for a builtin or the host. What it fails to start it leaves no trace of. -/
def hostCall (natives : Array Native) (callee : Value) (args : List Value) (s : State) :
    Transition :=
  let floor := s.stack.size
  let s := if s.activations.isEmpty then { s with location := none } else s
  let refuse (e : RuntimeError) (s : State) : Transition :=
    .next (.deliver (.error e)) (s.truncate floor)
  match Machine.pushAll (callee :: args) s with
  | .error e s => refuse e s
  | .ok _ s =>
    match callee with
    | .closure c =>
      match Machine.enterClosure c floor none s with
      | .ok _ s => .next .execute s
      | .error e s => refuse e s
    | .native n =>
      match Machine.enterNative natives n floor args.length none s with
      | .ok native s => afterNative (native.start s)
      | .error e s => refuse e s
    | v => refuse (.type (.call v.typeName)) s

/-- Gives the outcome of a call to the builtin that made it, or ends the run. -/
def handOver (natives : Array Native) (result : Except RuntimeError (List Value)) (s : State) :
    Transition :=
  match s.activations with
  | .native call :: _ =>
    match natives[call.native]? with
    | some native => afterNative (native.resume call.memo result s)
    | none => nativeError .noFunction s
  | _ => .halt result s

end Transition

/-- One step of a configuration. -/
def step (natives : Array Native) : Mode → State → Transition
  | .execute, s =>
    match Machine.instruction s with
    | .ok .nothing s => .next .execute s
    | .ok (.call argCount expected) s => .guestCall natives argCount expected s
    | .ok (.ret results) s => .guestReturn results s
    | .error e s => .guestError e s
  | .enter callee args, s => .hostCall natives callee args s
  | .deliver result, s => .handOver natives result s

/-- The end of a run, or where it was when the steps ran out. -/
inductive Run
  | halted (result : Except RuntimeError (List Value)) (state : State)
  | running (mode : Mode) (state : State)

/-- At most `fuel` steps. -/
def run (natives : Array Native) : Nat → Mode → State → Run
  | 0, mode, s => .running mode s
  | fuel + 1, mode, s =>
    match step natives mode s with
    | .next mode s => run natives fuel mode s
    | .halt result s => .halted result s

/-- Calls a value from outside. -/
def callValue (natives : Array Native) (fuel : Nat) (callee : Value) (args : List Value)
    (s : State) : Run :=
  run natives fuel (.enter callee args) s

end MiniLua
