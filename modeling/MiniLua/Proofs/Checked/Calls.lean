import MiniLua.Proofs.Checked.Builtins
import MiniLua.Proofs.Checked.Instructions
import MiniLua.Proofs.Stack.Discipline

/-! Calls and steps over operations that have ranges. A step that crashes has no result. -/

namespace MiniLua.Checked

open Effects

/-! ### Entering a function -/

/-- Guest functions and builtins are counted apart. -/
def checkDepth : Program Unit := do
  let s ← get
  let depth ← word (s.frames.length + s.nativeCalls.length)
  if s.options.maxCallDepth ≤ depth then throw (.error .stackOverflow)

/-- Binds the first `n` cells to arguments. -/
def bindCells (args : Array Value) (cells : Array (Option Nat)) :
    Nat → Program (Array (Option Nat))
  | 0 => return cells
  | n + 1 => do
    let cells ← bindCells args cells n
    let cell ← total (Machine.onHeap fun h ↦ h.allocCell (args.getD n .nil))
    ranged (replace cells n (some cell))

/-- The arguments and those beyond the parameters, if they are kept. -/
def splitArgs (p : Prototype) (args : List Value) : Option (Array Value × List Value) :=
  if p.variadic ∧ p.arity < args.length then split args.toArray p.arity
  else some (args.toArray, [])

/-- Enters a closure that lies at stack slot `floor` with nothing but its arguments above it. -/
def enterClosure (closure floor argCount : Nat) (expected : Option Nat) : Program Unit := do
  checkDepth
  match (← get).proto? closure with
  | none => throw (.error .noFunction)
  | some p =>
    let _ ← ranged (if (← get).stack.size = floor + 1 + argCount then some () else none)
    let (_, args) ← ranged (split (← get).stack (← word (floor + 1)))
    modify fun s ↦ s.truncate floor
    let (args, varargs) ← ranged (splitArgs p args)
    let cells ← bindCells args (Array.replicate (max p.cellCount p.arity) none) p.arity
    let frame : Frame := { closure, ip := 0, base := floor, expected, cells, varargs }
    modify fun s ↦ { s with activations := .guest frame :: s.activations }

/-- Starts a builtin that lies at stack slot `floor` with its arguments above it. -/
def enterNative (builtins : Array Builtin) (native floor argCount : Nat) (expected : Option Nat) :
    Program Builtin := do
  checkDepth
  match builtins[native]? with
  | none => throw (.error .noFunction)
  | some b =>
    let base ← word (floor + 1)
    let call : NativeCall := ⟨native, b.native.name, base, argCount, expected, .nothing⟩
    modify fun s ↦ { s with activations := .native call :: s.activations }
    return b

/-! ### Steps -/

/-- Ends the innermost builtin with what is in its window. -/
def nativeResults (s : State) : Option Transition :=
  match s.activations with
  | .native call :: rest => do
    let results ← if call.base < s.stack.size then (split s.stack call.base).map Prod.snd
      else some []
    return Transition.giveResults results call.expected
      ({ s with activations := rest }.truncate (call.base - 1))
  | _ => some (.next (.deliver (.ok [])) s)

/-- Goes on after a builtin started or resumed. -/
def afterNative : EStateM.Result Stop State Outcome → Option Transition
  | .ok .finished s => nativeResults s
  | .ok (.invoke callee args memo) s => some (.next (.enter callee args) (Transition.remember memo s))
  | .error (.error e) s => some (Transition.nativeError e s)
  | .error .crash _ => none

def enterCallee (builtins : Array Builtin) (fail : RuntimeError → State → Transition)
    (callee : Value) (floor argCount : Nat) (expected : Option Nat) (s : State) :
    Option Transition :=
  match callee with
  | .closure c =>
    match enterClosure c floor argCount expected s with
    | .ok _ s => some (.next .execute s)
    | .error (.error e) s => some (fail e s)
    | .error .crash _ => none
  | .native n =>
    match enterNative builtins n floor argCount expected s with
    | .ok b s => afterNative ((builtin b).start s)
    | .error (.error e) s => some (fail e s)
    | .error .crash _ => none
  | v => some (fail (.type (.call v.typeName)) s)

/-- Calls what lies under the top `argCount` values of the stack. -/
def guestCall (builtins : Array Builtin) (argCount : Nat) (expected : Option Nat) (s : State) :
    Option Transition :=
  if argCount + 1 < 2 ^ 64 then
    if s.stack.size < argCount + 1 then some (Transition.guestError .operand s)
    else do
      let floor := s.stack.size - (argCount + 1)
      let callee ← s.stack[floor]?
      enterCallee builtins Transition.guestError callee floor argCount expected s
  else none

/-- Makes a call for a builtin or the host. -/
def hostCall (builtins : Array Builtin) (callee : Value) (args : List Value) (s : State) :
    Option Transition :=
  let start := if s.activations.isEmpty then { s with location := none } else s
  let refuse (e : RuntimeError) (t : State) : Transition :=
    .next (.deliver (.error e)) (t.truncate s.stack.size)
  match Machine.pushAll (callee :: args) start with
  | .error e t => some (refuse e t)
  | .ok _ t => enterCallee builtins refuse callee s.stack.size args.length none t

/-- Gives the outcome of a call to the builtin that made it, or ends the run. -/
def handOver (builtins : Array Builtin) (result : Except RuntimeError (List Value)) (s : State) :
    Option Transition :=
  match s.activations with
  | .native call :: _ =>
    match builtins[call.native]? with
    | some b => afterNative ((builtin b).resume call.memo result s)
    | none => some (Transition.nativeError .noFunction s)
  | _ => some (.halt result s)

/-- What follows an instruction. -/
def afterInstruction (builtins : Array Builtin) :
    EStateM.Result Stop State Machine.Demand → Option Transition
  | .ok .nothing s => some (.next .execute s)
  | .ok (.call argCount expected) s => guestCall builtins argCount expected s
  | .ok (.ret results) s => some (Transition.guestReturn results s)
  | .error (.error e) s => some (Transition.guestError e s)
  | .error .crash _ => none

def step (builtins : Array Builtin) : Mode → State → Option Transition
  | .execute, s => afterInstruction builtins (instruction s)
  | .enter callee args, s => hostCall builtins callee args s
  | .deliver result, s => handOver builtins result s

section

variable {s : State}

theorem length_activations (s : State) :
    s.frames.length + s.nativeCalls.length = s.activations.length := by
  unfold State.frames State.nativeCalls
  induction s.activations with
  | nil => rfl
  | cons activation rest ih =>
    cases activation with
    | guest frame | native call =>
      rw [List.filterMap_cons, List.filterMap_cons, List.length_cons]
      dsimp only
      rw [List.length_cons]
      omega

theorem checkDepth_eq (h : s.activations.length < 2 ^ 60) :
    checkDepth s = total Machine.checkDepth s := by
  refine get_bind_total ?_
  rw [length_activations, word_bind (by omega)]
  exact ite_total (fun _ ↦ rfl) fun _ ↦ rfl

theorem checkDepth_eq_ok {u : Unit} {t : State} (h : Machine.checkDepth s = .ok u t) : t = s := by
  unfold Machine.checkDepth at h
  rw [bind_apply, get_apply] at h
  dsimp only at h
  split at h <;> cases h
  rfl

/-- The state after `n` new cells, which hold arguments. -/
def bound (args : List Value) (n : Nat) (s : State) : State :=
  { s with heap := { s.heap with
      cells := s.heap.cells ++ ((List.range n).map fun k ↦ args.getD k .nil).toArray } }

/-- The new cells. -/
def boundCells (n : Nat) (s : State) : List (Option Nat) :=
  (List.range n).map fun k ↦ some (s.heap.cells.size + k)

theorem allocCells_apply (args : List Value) (n : Nat) (s : State) :
    Machine.allocCells args n s = .ok (boundCells n s) (bound args n s) := by
  induction n generalizing args s with
  | zero =>
    unfold bound
    rw [List.range_zero, List.map_nil, Array.append_empty]
    rfl
  | succ n ih =>
    generalize ht : { s with heap := (s.heap.allocCell (args.headD .nil)).2 } = t
    have hsize : t.heap.cells.size = s.heap.cells.size + 1 := by
      rw [← ht]
      exact Array.size_push _
    have hcells : boundCells (n + 1) s = some s.heap.cells.size :: boundCells n t := by
      unfold boundCells
      rw [List.range_succ_eq_map, List.map_cons, List.map_map, hsize]
      refine congrArg (_ :: ·) (List.map_congr_left fun k _ ↦ congrArg some ?_)
      omega
    have hbound : bound args (n + 1) s = bound args.tail n t := by
      have hargs : (List.range (n + 1)).map (fun k ↦ args.getD k .nil) =
          args.headD .nil :: (List.range n).map fun k ↦ args.tail.getD k .nil := by
        rw [List.range_succ_eq_map, List.map_cons, List.map_map]
        cases args <;> rfl
      unfold bound
      rw [← ht, hargs]
      refine congrArg (fun cells ↦ { s with heap := { s.heap with cells } }) (Array.ext' ?_)
      rw [Array.toList_append, Array.toList_append, Heap.allocCell, Array.toList_push,
        List.append_assoc]
      rfl
    have halloc : Machine.onHeap (fun h ↦ h.allocCell (args.headD .nil)) s =
        .ok s.heap.cells.size t := by
      rw [← ht]
      rfl
    rw [Machine.allocCells, bind_of_ok halloc, bind_of_ok (ih _ _), hcells, hbound]
    rfl

theorem bindCells_apply (args : List Value) (n k : Nat) (hk : n ≤ k) (s : State) :
    bindCells args.toArray (Array.replicate k none) n s =
      .ok (boundCells n s ++ List.replicate (k - n) none).toArray (bound args n s) := by
  induction n with
  | zero =>
    unfold bound
    rw [List.range_zero, List.map_nil, Array.append_empty]
    rfl
  | succ n ih =>
    have hlength : (boundCells n s).length = n := by
      rw [boundCells, List.length_map, List.length_range]
    have hsize : (boundCells n s ++ List.replicate (k - n) none).toArray.size = k := by
      rw [List.size_toArray, List.length_append, List.length_replicate, hlength]
      omega
    have hcell : (bound args n s).heap.cells.size = s.heap.cells.size + n := by
      simp [bound]
    have hbound : bound args (n + 1) s = { bound args n s with
        heap := ((bound args n s).heap.allocCell (args.toArray.getD n .nil)).2 } := by
      have harg : args.toArray.getD n .nil = args.getD n .nil := by
        rw [Array.getD_eq_getD_getElem?, List.getElem?_toArray, List.getD_eq_getElem?_getD]
      rw [harg]
      refine congrArg (fun cells ↦ { s with heap := { s.heap with cells } }) (Array.ext' ?_)
      rw [Array.toList_append, Array.toList_push, bound, Array.toList_append, List.range_succ,
        List.map_append, List.append_assoc]
      rfl
    have halloc : total (Machine.onHeap fun h ↦ h.allocCell (args.toArray.getD n .nil))
        (bound args n s) = .ok (s.heap.cells.size + n) (bound args (n + 1) s) := by
      rw [hbound, ← hcell]
      rfl
    have hset : (boundCells n s ++ List.replicate (k - n) none).toArray.setIfInBounds n
        (some (s.heap.cells.size + n)) =
        (boundCells (n + 1) s ++ List.replicate (k - (n + 1)) none).toArray := by
      have hreplicate : List.replicate (k - n) (none : Option Nat) =
          none :: List.replicate (k - (n + 1)) none := by
        rw [← List.replicate_succ]
        congr 1
        omega
      have hcells : boundCells (n + 1) s = boundCells n s ++ [some (s.heap.cells.size + n)] := by
        rw [boundCells, List.range_succ, List.map_append]
        rfl
      rw [List.setIfInBounds_toArray, List.set_append_right _ _ (by omega), hlength, Nat.sub_self,
        hreplicate, List.set_cons_zero, hcells, List.append_assoc]
      rfl
    rw [bindCells, bind_of_ok (ih (by omega)), bind_of_ok halloc, replace_eq (by omega), hset]
    rfl

/-- Arguments beyond the parameters do not matter for the cells. -/
theorem splitArgs_eq (p : Prototype) (args : List Value) :
    ∃ front : List Value,
      splitArgs p args = some (front.toArray, if p.variadic then args.drop p.arity else []) ∧
        ∀ s, bound front p.arity s = bound args p.arity s := by
  unfold splitArgs
  split
  · next h =>
    obtain ⟨hvariadic, hlt⟩ := h
    refine ⟨args.take p.arity, ?_, fun s ↦ ?_⟩
    · have hshrink : args.toArray.shrink p.arity = (args.take p.arity).toArray := by simp
      have hextract : (args.toArray.extract p.arity args.toArray.size).toList =
          args.drop p.arity := by simp
      rw [split_eq (by rw [List.size_toArray]; omega), if_pos hvariadic, hshrink, hextract]
    · have hmap : (List.range p.arity).map (fun k ↦ (args.take p.arity).getD k .nil) =
          (List.range p.arity).map fun k ↦ args.getD k .nil := by
        refine List.map_congr_left fun k hk ↦ ?_
        rw [List.getD_eq_getElem?_getD, List.getElem?_take_of_lt (List.mem_range.mp hk),
          List.getD_eq_getElem?_getD]
      rw [bound, hmap]
      rfl
  · next h =>
    refine ⟨args, ?_, fun _ ↦ rfl⟩
    split
    · next hvariadic =>
      rw [List.drop_eq_nil_of_le (Nat.le_of_not_lt fun hlt ↦ h ⟨hvariadic, hlt⟩)]
    · rfl

theorem enterClosure_eq {closure floor argCount : Nat} {expected : Option Nat}
    (hcalls : s.activations.length < 2 ^ 60) (hsize : s.stack.size < 2 ^ 62)
    (hstack : s.stack.size = floor + 1 + argCount) :
    enterClosure closure floor argCount expected s =
      total (Machine.enterClosure closure floor expected) s := by
  refine bind_total (checkDepth_eq hcalls) fun _ t ht ↦ ?_
  obtain rfl := checkDepth_eq_ok ht
  refine get_bind_total ?_
  cases t.proto? closure with
  | none => rfl
  | some p =>
    refine get_bind_total ?_
    rw [ranged_bind (if_pos hstack)]
    refine get_bind_total ?_
    rw [word_bind (by omega), ranged_bind (split_eq (by omega))]
    generalize (t.stack.extract (floor + 1) t.stack.size).toList = args
    refine total_bind_total (m := modify fun s ↦ s.truncate floor) fun _ u _ ↦ ?_
    obtain ⟨front, hsplit, hfront⟩ := splitArgs_eq p args
    have hcells := bindCells_apply front p.arity (max p.cellCount p.arity) (by omega) u
    have hunbound : max p.cellCount p.arity - p.arity = p.cellCount - p.arity := by omega
    rw [hfront, hunbound] at hcells
    dsimp only
    rw [ranged_bind hsplit, bind_of_ok hcells, total, bind_of_ok (allocCells_apply args p.arity u)]
    rfl

variable {builtins : Array Builtin}

/-- A builtin that is entered is the same as the one in the registry, and so is what it runs on. -/
theorem enterNative_cases {native floor argCount : Nat} {expected : Option Nat}
    (hcalls : s.activations.length < 2 ^ 60) (hfloor : floor < 2 ^ 62) :
    (∃ e, enterNative builtins native floor argCount expected s = .error (.error e) s ∧
      Machine.enterNative (builtins.map Builtin.native) native floor argCount expected s =
        .error e s) ∨
      ∃ b, ∃ call : NativeCall, call.base = floor + 1 ∧ call.argCount = argCount ∧
        enterNative builtins native floor argCount expected s =
          .ok b { s with activations := .native call :: s.activations } ∧
        Machine.enterNative (builtins.map Builtin.native) native floor argCount expected s =
          .ok b.native { s with activations := .native call :: s.activations } := by
  have hdepth := checkDepth_eq hcalls
  unfold enterNative Machine.enterNative
  cases hcheck : Machine.checkDepth s with
  | error e t =>
    obtain rfl : t = s := by
      unfold Machine.checkDepth at hcheck
      rw [bind_apply, get_apply] at hcheck
      dsimp only at hcheck
      split at hcheck <;> cases hcheck
      rfl
    rw [total, hcheck] at hdepth
    exact .inl ⟨e, bind_of_error hdepth, bind_of_error hcheck⟩
  | ok u t =>
    obtain rfl := checkDepth_eq_ok hcheck
    rw [total, hcheck] at hdepth
    rw [bind_of_ok hdepth, bind_of_ok hcheck, Array.getElem?_map]
    cases builtins[native]? with
    | none => exact .inl ⟨_, rfl, rfl⟩
    | some b =>
      dsimp only [Option.map_some]
      rw [word_bind (by omega)]
      exact .inr ⟨b, _, rfl, rfl, rfl, rfl⟩

theorem nativeResults_eq (s : State) : nativeResults s = some (Transition.nativeResults s) := by
  unfold nativeResults Transition.nativeResults
  cases s.activations with
  | nil => rfl
  | cons activation rest =>
    cases activation with
    | guest frame => rfl
    | native call =>
      dsimp only
      split
      · next h =>
        rw [split_eq (Nat.le_of_lt h)]
        rfl
      · next h =>
        have hempty : (s.stack.extract call.base s.stack.size).toList = [] := by
          rw [Array.toList_eq_nil_iff, Array.extract_empty_of_size_le_start (by omega)]
        rw [hempty]
        rfl

theorem afterNative_eq {m : Machine Outcome} {c : Program Outcome} (h : c s = total m s) :
    afterNative (c s) = some (Transition.afterNative (m s)) := by
  rw [h, total]
  cases m s with
  | error e t => rfl
  | ok outcome t =>
    cases outcome with
    | finished => exact nativeResults_eq t
    | invoke callee args memo => rfl

theorem enterCallee_eq {fail : RuntimeError → State → Transition} {callee : Value}
    {floor argCount : Nat} {expected : Option Nat} (hshort : State.Short s)
    (hcalls : s.activations.length < 2 ^ 60) (hsize : s.stack.size < 2 ^ 62)
    (hstack : s.stack.size = floor + 1 + argCount) :
    enterCallee builtins fail callee floor argCount expected s =
      some (Transition.enterCallee (builtins.map Builtin.native) fail callee floor argCount expected
        s) := by
  unfold enterCallee Transition.enterCallee
  cases callee with
  | closure c =>
    dsimp only
    rw [enterClosure_eq hcalls hsize hstack, total]
    cases Machine.enterClosure c floor expected s <;> rfl
  | native n =>
    dsimp only
    obtain ⟨e, hchecked, hentered⟩ | ⟨b, call, -, -, hchecked, hentered⟩ :=
      enterNative_cases hcalls (by omega : floor < 2 ^ 62)
    · rw [hchecked, hentered]
    · rw [hchecked, hentered]
      exact afterNative_eq
        (start_eq (s := { s with activations := .native call :: s.activations }) hshort b)
  | nil | bool | int | float | string | table => rfl

theorem guestCall_eq {argCount : Nat} {expected : Option Nat} (hshort : State.Short s)
    (hcalls : s.activations.length < 2 ^ 60) (hsize : s.stack.size < 2 ^ 62)
    (hcount : argCount + 1 < 2 ^ 64) :
    guestCall builtins argCount expected s =
      some (Transition.guestCall (builtins.map Builtin.native) argCount expected s) := by
  rw [guestCall, if_pos hcount, Transition.guestCall_eq]
  split
  · rfl
  · next hlt =>
    have hfloor : s.stack.size - (argCount + 1) < s.stack.size := by omega
    have hstack : s.stack.size = s.stack.size - (argCount + 1) + 1 + argCount := by omega
    rw [Array.getD_eq_getD_getElem?]
    dsimp only
    rw [Array.getElem?_eq_getElem hfloor]
    exact enterCallee_eq hshort hcalls hsize hstack

theorem hostCall_eq {callee : Value} {args : List Value} (hshort : State.Short s)
    (hcalls : s.activations.length < 2 ^ 60) (hsize : s.stack.size + args.length < 2 ^ 61) :
    hostCall builtins callee args s =
      some (Transition.hostCall (builtins.map Builtin.native) callee args s) := by
  rw [Transition.hostCall_eq]
  unfold hostCall
  dsimp only
  obtain ⟨location, hstart⟩ := Machine.exists_location s
  rw [hstart]
  cases hpush : Machine.pushAll (callee :: args) { s with location } with
  | error e t => rfl
  | ok u t =>
    obtain rfl := Machine.pushAll_eq_ok hpush
    have hstack : (s.stack ++ callee :: args).size = s.stack.size + 1 + args.length := by
      rw [Machine.size_appendList, List.length_cons]
      omega
    exact enterCallee_eq (s := { s with location, stack := s.stack ++ callee :: args })
      hshort hcalls (by dsimp only; omega) hstack

theorem handOver_eq (result : Except RuntimeError (List Value)) (s : State) :
    handOver builtins result s =
      some (Transition.handOver (builtins.map Builtin.native) result s) := by
  unfold handOver Transition.handOver
  cases s.activations with
  | nil => rfl
  | cons activation rest =>
    cases activation with
    | guest frame => rfl
    | native call =>
      dsimp only
      rw [Array.getElem?_map]
      cases builtins[call.native]? with
      | none => rfl
      | some b => exact afterNative_eq (resume_eq b call.memo result s)

theorem takes_le (multi : Nat) (i : Instruction) : i.takes multi ≤ multi + 256 := by
  have ha := i.a.toNat_lt
  unfold Instruction.takes
  split
  · omega
  · split
    any_goals omega
    · split <;> omega
    · split <;> omega

/-- A call only moves the calling function on. -/
theorem advance_of_call {argCount : Nat} {expected : Option Nat} {t : State}
    (h : Machine.instruction s = .ok (.call argCount expected) t) :
    t = Machine.advance s ∧ argCount < s.lastMulti + 256 := by
  obtain ⟨hadvance, htakes⟩ := Machine.instruction_call h
  refine ⟨hadvance, ?_⟩
  rw [State.takes] at htakes
  cases hnext : s.next? with
  | none =>
    rw [hnext] at htakes
    exact absurd htakes (Nat.succ_ne_zero _)
  | some i =>
    rw [hnext, Option.map_some, Option.getD_some] at htakes
    have hle := takes_le s.lastMulti i
    omega

theorem length_advance (s : State) :
    (Machine.advance s).activations.length = s.activations.length := by
  unfold Machine.advance
  split
  · next hs =>
    rw [hs]
    rfl
  · rfl

/-- What is in the memory has a size of less than 64 bits: a value takes more than a byte, and so does
an activation and an instruction. A multi result that was in the memory has a length. -/
structure State.InMemory (s : State) : Prop where
  stack : s.stack.size < 2 ^ 60
  activations : s.activations.length < 2 ^ 60
  lastMulti : s.lastMulti < 2 ^ 63
  strings : State.Short s
  tables : ∀ t ∈ s.heap.tables, t.room < 2 ^ 60
  code : ∀ p ∈ s.heap.protos, p.code.size < 2 ^ 60

/-- The arguments of a call that is to be made are in the memory, too. -/
def Mode.InMemory : Mode → Prop
  | .enter _ args => args.length < 2 ^ 60
  | _ => True

theorem step_eq {mode : Mode} (hmode : Mode.InMemory mode) (h : State.InMemory s) :
    step builtins mode s = some (MiniLua.step (builtins.map Builtin.native) mode s) := by
  cases mode with
  | execute =>
    rw [Transition.step_execute]
    have hmulti := h.lastMulti
    have hstack := h.stack
    have hroomy : State.Roomy s (s.stack.size + 1) := fun t ht ↦ by
      have hroom := h.tables t ht
      unfold Table.capacity
      omega
    have hinstruction := instruction_eq hmulti (by omega) hroomy fun p hp ↦ by
      have hcode := h.code p hp
      omega
    rw [step, hinstruction, total]
    cases hrun : Machine.instruction s with
    | error e t => rfl
    | ok demand t =>
      cases demand with
      | nothing | ret results => rfl
      | call argCount expected =>
        obtain ⟨rfl, hcount⟩ := advance_of_call hrun
        have hheap : (Machine.advance s).heap = s.heap := by
          unfold Machine.advance
          split <;> rfl
        have hactivations := h.activations
        refine guestCall_eq ?_ ?_ ?_ (by omega)
        · unfold State.Short
          rw [hheap]
          exact h.strings
        · rw [length_advance]
          exact hactivations
        · rw [Machine.advance_stack]
          omega
  | enter callee args =>
    have hstack := h.stack
    have hargs : args.length < 2 ^ 60 := hmode
    exact hostCall_eq h.strings h.activations (by omega)
  | deliver result => exact handOver_eq result s

end

end MiniLua.Checked
