import Mathlib.Data.List.Forall2
import MiniLua.Proofs.Machine.Primitives

/-! What each instruction makes of a stack that holds its operands. -/

namespace MiniLua.Machine

open Effects

section

variable {α : Type} (S : Array α)

@[simp] theorem size_appendList (vs : List α) : (S ++ vs).size = S.size + vs.length := by
  rw [← Array.length_toList, Array.toList_appendList, List.length_append, Array.length_toList]

theorem appendList_append (vs ws : List α) : S ++ vs ++ ws = S ++ (vs ++ ws) := by
  apply Array.ext'
  simp only [Array.toList_appendList, List.append_assoc]

theorem appendList_reverse_cons (v : α) (vs : List α) :
    S ++ (v :: vs).reverse = (S ++ vs.reverse).push v := by
  apply Array.ext'
  simp

theorem shrink_appendList (vs : List α) : (S ++ vs).shrink S.size = S := by
  apply Array.ext'
  rw [Array.shrink_eq_take, Array.take_eq_extract, Array.toList_extract, Array.toList_appendList]
  simp

theorem extract_appendList (vs : List α) :
    ((S ++ vs).extract S.size (S ++ vs).size).toList = vs := by
  simp

end

/-- Pushes values, and asks for nothing more. -/
def give (vs : List Value) : Machine Demand := do
  pushAll vs
  return .nothing

theorem pushAll_cases (vs : List Value) (s : State) :
    pushAll vs s = .ok () { s with stack := s.stack ++ vs } ∨
      ∃ pushed : List Value, pushAll vs s = .error .stackOverflow { s with stack := s.stack ++ pushed } := by
  induction vs generalizing s with
  | nil => exact .inl (by simp [pushAll_nil])
  | cons v vs ih =>
    rw [pushAll_cons, bind_apply, push_apply]
    by_cases hroom : s.stack.size < s.options.maxStack
    · rw [if_pos hroom]
      obtain h | ⟨pushed, h⟩ := ih { s with stack := s.stack.push v }
      · exact .inl (by simpa using h)
      · exact .inr ⟨v :: pushed, by simpa using h⟩
    · rw [if_neg hroom]
      exact .inr ⟨[], by simp⟩

/-- The values lie on top in their order, or there was no room for them. -/
theorem give_cases (vs : List Value) (s : State) :
    give vs s = .ok .nothing { s with stack := s.stack ++ vs } ∨
      ∃ pushed : List Value, give vs s = .error .stackOverflow { s with stack := s.stack ++ pushed } := by
  obtain h | ⟨pushed, h⟩ := pushAll_cases vs s
  · exact .inl (by rw [give, bind_of_ok h]; rfl)
  · exact .inr ⟨pushed, by rw [give, bind_of_error h]⟩

theorem give_one (v : Value) (s : State) :
    (do push v; pure Demand.nothing : Machine Demand) s = give [v] s := by
  rw [give, pushAll_cons]
  simp only [bind_apply]
  cases push v s <;> rfl

theorem give_of_room {v : Value} {s : State} (h : s.stack.size < s.options.maxStack) :
    give [v] s = .ok .nothing { s with stack := s.stack.push v } := by
  rw [← give_one, bind_apply, push_apply, if_pos h]
  rfl

theorem give_of_full {v : Value} {s : State} (h : ¬ s.stack.size < s.options.maxStack) :
    give [v] s = .error .stackOverflow s := by
  rw [← give_one, bind_apply, push_apply, if_neg h]

theorem give_two (v w : Value) (s : State) :
    (do push v; push w; pure Demand.nothing : Machine Demand) s = give [v, w] s := by
  rw [give, pushAll_cons, pushAll_cons]
  simp only [bind_apply]
  cases push v s with
  | error => rfl
  | ok _ t =>
    dsimp only
    cases push w t <;> rfl

theorem discard_apply {α : Type} (m : Machine α) (s : State) :
    (discard m : Machine Unit) s = match m s with
      | .ok _ t => .ok () t
      | .error e t => .error e t := by
  change (EStateM.map _ m) s = _
  unfold EStateM.map
  cases m s <;> rfl

theorem pop_push {S : Array Value} {v : Value} {s : State} (h : s.stack = S.push v) :
    pop s = .ok v { s with stack := S } := by
  rw [pop_apply, h]
  simp

theorem top_push {S : Array Value} {v : Value} {s : State} (h : s.stack = S.push v) :
    top s = .ok v s := by
  rw [top_apply, h]
  simp

theorem popMany_append {S : Array Value} {vs : List Value} {s : State} (h : s.stack = S ++ vs) :
    popMany vs.length s = .ok vs { s with stack := S } := by
  have hsize : s.stack.size - vs.length = S.size := by simp [h]
  rw [popMany_apply, if_neg (by simp [h]), hsize, State.truncate, h, extract_appendList,
    shrink_appendList]

section

variable {frame : Frame} {constants : Array Value} {i : Instruction} {s : State} {S : Array Value}

theorem perform_loadNil :
    perform frame constants i .loadNil s = give (List.replicate i.a.toNat .nil) s := rfl

theorem perform_loadTrue : perform frame constants i .loadTrue s = give [.bool true] s :=
  give_one _ s

theorem perform_loadFalse : perform frame constants i .loadFalse s = give [.bool false] s :=
  give_one _ s

attribute [local simp] perform in
theorem perform_loadConst {v : Value} (hv : constants[i.x]? = some v) :
    perform frame constants i .loadConst s = give [v] s := by
  simp only [perform, hv]
  exact give_one _ s

theorem frameCell_of_bound {slot cell : Nat} (h : frame.cells[slot]? = some (some cell)) :
    frameCell frame slot s = .ok cell s := by
  rw [frameCell, Array.getD_eq_getD_getElem?, h]
  rfl

theorem perform_getCell {cell : Nat} (h : frame.cells[i.x]? = some (some cell)) :
    perform frame constants i .getCell s = give [s.heap.cell cell] s := by
  simp only [perform, loadCell, bind_apply, frameCell_of_bound h, get_apply]
  exact give_one _ s

theorem perform_setCell {cell : Nat} {v : Value} (h : frame.cells[i.x]? = some (some cell))
    (hs : s.stack = S.push v) :
    perform frame constants i .setCell s =
      .ok .nothing { s with stack := S, heap := s.heap.setCell cell v } := by
  simp only [perform, storeCell, bind_apply, frameCell_of_bound h, pop_push hs]
  rfl

theorem perform_newCell {v : Value} {g : Frame} {rest : List Activation} (hs : s.stack = S.push v)
    (hcalls : s.activations = .guest g :: rest) (hx : i.x < frame.cells.size) :
    perform frame constants i .newCell s = .ok .nothing { s with
      stack := S
      heap := (s.heap.allocCell v).2
      activations :=
        .guest { g with cells := g.cells.setIfInBounds i.x (some (s.heap.allocCell v).1) } :: rest } := by
  simp only [perform, bind_apply, pop_push hs, onHeap, modifyGet_apply, if_pos hx,
    changeFrame_apply, hcalls]
  rfl

section

variable {c : Closure} (hc : s.heap.closures[frame.closure]? = some c)

include hc

theorem upvalueCell_of_closure {slot cell : Nat} (hcell : c.upvalues[slot]? = some cell) :
    upvalueCell frame slot s = .ok cell s := by
  simp only [upvalueCell, bind_apply, get_apply, hc, hcell]
  rfl

theorem perform_getUpvalue {cell : Nat} (hcell : c.upvalues[i.x]? = some cell) :
    perform frame constants i .getUpvalue s = give [s.heap.cell cell] s := by
  simp only [perform, loadCell, bind_apply, upvalueCell_of_closure hc hcell, get_apply]
  exact give_one _ s

theorem perform_setUpvalue {cell : Nat} {v : Value} (hcell : c.upvalues[i.x]? = some cell)
    (hs : s.stack = S.push v) :
    perform frame constants i .setUpvalue s =
      .ok .nothing { s with stack := S, heap := s.heap.setCell cell v } := by
  simp only [perform, storeCell, bind_apply, upvalueCell_of_closure hc hcell, pop_push hs]
  rfl

theorem environment_of_closure : environment frame s = .ok (.table c.env) s := by
  simp only [environment, bind_apply, get_apply, hc]
  rfl

theorem perform_getGlobal {key : Value} (hkey : constants[i.x]? = some key) :
    perform frame constants i .getGlobal s = give [s.heap.rawGet (.table c.env) key] s := by
  simp only [perform, bind_apply, hkey, orOperand_apply, environment_of_closure hc, get_apply]
  exact give_one _ s

theorem perform_setGlobal {key v : Value} (hkey : constants[i.x]? = some key)
    (hs : s.stack = S.push v) :
    perform frame constants i .setGlobal s =
      (do setIndex (.table c.env) key v; pure .nothing : Machine Demand) { s with stack := S } := by
  simp only [perform, bind_apply, hkey, orOperand_apply, environment_of_closure hc, pop_push hs]

end

theorem perform_getIndex {object key : Value} (hs : s.stack = (S.push object).push key) :
    perform frame constants i .getIndex s =
      (do give [← index object key] : Machine Demand) { s with stack := S } := by
  simp only [perform, bind_apply, pop_push hs, pop_push (s := { s with stack := S.push object }) rfl]
  cases index object key { s with stack := S } with
  | error => rfl
  | ok v t => exact give_one v t

theorem perform_setIndex {v object key : Value}
    (hs : s.stack = ((S.push v).push object).push key) :
    perform frame constants i .setIndex s =
      (do setIndex object key v; pure .nothing : Machine Demand) { s with stack := S } := by
  simp only [perform, bind_apply, pop_push hs,
    pop_push (s := { s with stack := (S.push v).push object }) rfl,
    pop_push (s := { s with stack := S.push v }) rfl]

theorem perform_newTable :
    perform frame constants i .newTable s =
      give [.table s.heap.tables.size] { s with heap := (s.heap.allocTable .empty).2 } :=
  give_one _ { s with heap := (s.heap.allocTable .empty).2 }

theorem perform_initIndex {table key v : Value} (hs : s.stack = ((S.push table).push key).push v) :
    perform frame constants i .initIndex s =
      (do setIndex table key v; pure .nothing : Machine Demand)
        { s with stack := S.push table } := by
  simp only [perform, bind_apply, pop_push hs,
    pop_push (s := { s with stack := (S.push table).push key }) rfl,
    top_push (s := { s with stack := S.push table }) rfl]

theorem perform_self {object key : Value} (hkey : constants[i.x]? = some key)
    (hs : s.stack = S.push object) :
    perform frame constants i .self s =
      (do give [← index object key, object] : Machine Demand) { s with stack := S } := by
  simp only [perform, bind_apply, hkey, orOperand_apply, pop_push hs]
  cases index object key { s with stack := S } with
  | error => rfl
  | ok v t => exact give_two v object t

theorem perform_neg {v : Value} (hs : s.stack = S.push v) :
    perform frame constants i .neg s =
      (do give [← lift (Operators.negate s.heap v)] : Machine Demand) { s with stack := S } := by
  simp only [perform, bind_apply, get_apply, pop_push hs]
  cases Operators.negate s.heap v with
  | error => rfl
  | ok w => exact give_one w _

theorem perform_len {v : Value} (hs : s.stack = S.push v) :
    perform frame constants i .len s =
      (do give [← lift (Operators.length s.heap v)] : Machine Demand) { s with stack := S } := by
  simp only [perform, bind_apply, get_apply, pop_push hs]
  cases Operators.length s.heap v with
  | error => rfl
  | ok w => exact give_one w _

theorem perform_not {v : Value} (hs : s.stack = S.push v) :
    perform frame constants i .not s = give [.bool v.isFalsey] { s with stack := S } := by
  simp only [perform, bind_apply, pop_push hs]
  exact give_one _ _

/-- What a binary operator makes of its operands. -/
def operate (op : Opcode) (a b : Value) : Machine Value := do
  let h := (← get).heap
  match op with
  | .concat => bytesValue (← lift (Operators.concat h a b))
  | .eq => pure (.bool (a.equal b))
  | .ne => pure (.bool (!a.equal b))
  | .lt => .bool <$> lift (Operators.lessThan h a b)
  | .le => .bool <$> lift (Operators.lessEqual h a b)
  | .gt => .bool <$> lift (Operators.lessThan h b a)
  | .ge => .bool <$> lift (Operators.lessEqual h b a)
  | op => lift (Operators.arith h op a b)

theorem binary_push {op : Opcode} {a b : Value} (hs : s.stack = (S.push a).push b) :
    (do binary op; pure .nothing : Machine Demand) s =
      (do give [← operate op a b] : Machine Demand) { s with stack := S } := by
  have hfirst := pop_push hs
  have hsecond := pop_push (s := { s with stack := S.push a }) rfl
  have hrest : binary op s = (do push (← operate op a b) : Machine Unit) { s with stack := S } := by
    unfold binary operate
    simp only [bind_apply, hfirst, hsecond, get_apply]
    cases op
    case concat => cases Operators.concat s.heap a b <;> rfl
    all_goals rfl
  simp only [bind_apply] at hrest ⊢
  rw [hrest]
  cases operate op a b { s with stack := S } with
  | error => rfl
  | ok v t => exact give_one v t

/-- Arithmetic, comparisons and concatenation. -/
def IsBinary : Opcode → Prop
  | .add | .sub | .mul | .div | .mod | .pow | .concat | .eq | .ne | .lt | .le | .gt | .ge => True
  | _ => False

theorem perform_binary {op : Opcode} (hop : IsBinary op) {a b : Value}
    (hs : s.stack = (S.push a).push b) :
    perform frame constants i op s =
      (do give [← operate op a b] : Machine Demand) { s with stack := S } := by
  rw [← binary_push hs]
  cases op <;> first | exact hop.elim | rfl

/-- The innermost function goes on at another instruction. -/
def jumped (s : State) (x : Nat) : State :=
  match s.activations with
  | .guest g :: rest => { s with activations := .guest { g with ip := x } :: rest }
  | _ => s

theorem goTo_apply (x : Nat) : goTo x s = .ok () (jumped s x) := by
  unfold goTo jumped
  exact (changeFrame_apply _ s).trans rfl

theorem perform_jump : perform frame constants i .jump s = .ok .nothing (jumped s i.x) := by
  simp only [perform, bind_apply, goTo_apply]
  rfl

theorem perform_jumpIfFalse {v : Value} (hs : s.stack = S.push v) :
    perform frame constants i .jumpIfFalse s = .ok .nothing
      (if v.isFalsey then jumped { s with stack := S } i.x else { s with stack := S }) := by
  simp only [perform, bind_apply, pop_push hs]
  cases v.isFalsey <;> rfl

theorem jumpKeeping_push {keep : Value → Bool} {v : Value} (hs : s.stack = S.push v) (x : Nat) :
    jumpKeeping keep x s = .ok () (if keep v then jumped s x else { s with stack := S }) := by
  simp only [jumpKeeping, bind_apply, top_push hs]
  cases keep v with
  | true => exact goTo_apply x
  | false =>
    have hpop : (discard pop : Machine Unit) s = .ok () { s with stack := S } := by
      rw [discard_apply, pop_push hs]
    exact hpop

theorem perform_jumpIfFalseKeep {v : Value} (hs : s.stack = S.push v) :
    perform frame constants i .jumpIfFalseKeep s =
      .ok .nothing (if v.isFalsey then jumped s i.x else { s with stack := S }) := by
  simp only [perform, bind_apply, jumpKeeping_push hs]
  rfl

theorem perform_jumpIfTrueKeep {v : Value} (hs : s.stack = S.push v) :
    perform frame constants i .jumpIfTrueKeep s =
      .ok .nothing (if v.isTruthy then jumped s i.x else { s with stack := S }) := by
  simp only [perform, bind_apply, jumpKeeping_push hs]
  rfl

theorem perform_pop {vs : List Value} (hs : s.stack = S ++ vs) (ha : i.a.toNat = vs.length) :
    perform frame constants i .pop s = .ok .nothing { s with stack := S } := by
  have hpop : (discard (popMany i.a.toNat) : Machine Unit) s = .ok () { s with stack := S } := by
    rw [discard_apply, ha, popMany_append hs]
  simp only [perform, bind_apply, hpop]
  rfl

theorem perform_call_apply : perform frame constants i .call s =
    .ok (.call (i.a.toNat + (if i.b = 0 then 0 else s.lastMulti))
      (if i.c.toNat = 0 then none else some (i.c.toNat - 1))) s := rfl

theorem perform_ret {vs : List Value} (hs : s.stack = S ++ vs)
    (hcount : i.a.toNat + (if i.b = 0 then 0 else s.lastMulti) = vs.length) :
    perform frame constants i .ret s = .ok (.ret vs) { s with stack := S } := by
  simp only [perform, bind_apply, operandCount_apply]
  rw [hcount, popMany_append hs]
  rfl

/-- As many results as expected, or all of them. -/
def adjusted (vs : List Value) : Option Nat → List Value
  | some n => (List.range n).map fun i ↦ vs.getD i .nil
  | none => vs

/-- The size of a multi result is noted. -/
def counted (vs : List Value) (expected : Option Nat) (s : State) : State :=
  match expected with
  | some _ => s
  | none => { s with lastMulti := vs.length }

theorem placeResults_eq (vs : List Value) (expected : Option Nat) :
    placeResults vs expected s = pushAll (adjusted vs expected) (counted vs expected s) := by
  cases expected <;> rfl

theorem perform_varargs :
    perform frame constants i .varargs s =
      give (adjusted frame.varargs (if i.a.toNat = 0 then none else some (i.a.toNat - 1)))
        (counted frame.varargs (if i.a.toNat = 0 then none else some (i.a.toNat - 1)) s) := by
  simp only [perform, bind_apply, placeResults_eq]
  rfl

theorem perform_closure :
    perform frame constants i .closure s = (do give [← makeClosure frame i.x] : Machine Demand) s := by
  simp only [perform, bind_apply]
  cases makeClosure frame i.x s with
  | error => rfl
  | ok v t => exact give_one v t

/-- The cell a capture stands for in a frame. -/
def Frame.Captures (frame : Frame) (upvalues : Array Nat) (cell : Nat) : Capture → Prop
  | .cell n => frame.cells[n]? = some (some cell)
  | .upvalue n => upvalues[n]? = some cell

theorem captured_of_bound {upvalues : Array Nat} {captures : List Capture} {cells : List Nat}
    (h : List.Forall₂ (fun c cell ↦ Frame.Captures frame upvalues cell c) captures cells) :
    captured frame upvalues captures s = .ok cells s := by
  unfold captured
  induction h with
  | nil => rfl
  | @cons c cell captures cells hc _ ih =>
    rw [List.mapM_cons]
    cases c with
    | cell n => simp only [bind_apply, frameCell_of_bound hc, ih, pure_apply]
    | upvalue n =>
      rw [Frame.Captures] at hc
      simp only [bind_apply, hc, orOperand_apply, ih, pure_apply]

theorem makeClosure_eq {c : Closure} {p q : Prototype} {x k : Nat} {cells : List Nat}
    (hc : s.heap.closures[frame.closure]? = some c) (hp : s.heap.protos[c.proto]? = some p)
    (hx : p.protos[x]? = some k) (hq : s.heap.protos[k]? = some q)
    (hcaptured : captured frame c.upvalues q.captures.toList s = .ok cells s) :
    makeClosure frame x s = .ok (.closure s.heap.closures.size)
      { s with heap := (s.heap.allocClosure ⟨k, c.env, cells.toArray⟩).2 } := by
  simp only [makeClosure, bind_apply, get_apply, hc, hp, hx, Option.bind_some, orOperand_apply, hq,
    hcaptured]
  rfl

theorem perform_setList {t : Nat} {vs : List Value} (hs : s.stack = S.push (.table t) ++ vs)
    (hcount : s.lastMulti = vs.length) (ht : t < s.heap.tables.size) :
    perform frame constants i .setList s = .ok .nothing { s with
      stack := S.push (.table t)
      heap := s.heap.modifyTable t fun table ↦
        (vs.zipIdx i.x).foldl (fun t (v, i) ↦ t.set (.int (Int64.ofNat i)) v) table } := by
  have htop := top_push (s := { s with stack := S.push (.table t) }) rfl
  have hpop := popMany_append hs
  rw [← hcount] at hpop
  simp only [perform, fillTable, bind_apply, get_apply, hpop, htop, if_pos ht]
  rfl

section

variable {counter limit step : Nat} (hcounter : frame.cells[i.x]? = some (some counter))
  (hlimit : frame.cells[i.x + 1]? = some (some limit))
  (hstep : frame.cells[i.x + 2]? = some (some step))

include hcounter hlimit hstep

theorem loopCells_of_bound : loopCells frame i.x s = .ok ⟨counter, limit, step⟩ s := by
  simp only [loopCells, bind_apply, frameCell_of_bound hcounter, frameCell_of_bound hlimit,
    frameCell_of_bound hstep]
  rfl

theorem perform_forPrep :
    perform frame constants i .forPrep s =
      (do prepareLoop ⟨counter, limit, step⟩; pure .nothing : Machine Demand) s := by
  simp only [perform, bind_apply, loopCells_of_bound hcounter hlimit hstep]

theorem perform_forTest :
    perform frame constants i .forTest s =
      give [.bool (loopGoes s.heap ⟨counter, limit, step⟩)] s := by
  simp only [perform, bind_apply, get_apply, loopCells_of_bound hcounter hlimit hstep]
  exact give_one _ s

theorem perform_forStep :
    perform frame constants i .forStep s = .ok .nothing { s with
      heap := s.heap.setCell counter
        (Operators.intOrFloat (· + ·) (· + ·) (s.heap.cell counter) (s.heap.cell step)) } := by
  simp only [perform, bind_apply, loopCells_of_bound hcounter hlimit hstep]
  rfl

end

end

theorem adjusted_succ (vs : List Value) (n : Nat) :
    adjusted vs (some (n + 1)) = vs.headD .nil :: adjusted vs.tail (some n) := by
  cases vs <;> simp [adjusted, List.range_succ_eq_map, Function.comp_def]

/-- Arguments go to fresh cells. -/
theorem allocCells_apply (args : List Value) (n : Nat) (s : State) :
    allocCells args n s = .ok ((List.range' s.heap.cells.size n).map some) { s with
      heap := { s.heap with cells := s.heap.cells ++ adjusted args (some n) } } := by
  induction n generalizing args s with
  | zero => simp [allocCells, adjusted, pure_apply]
  | succ n ih =>
    simp only [allocCells, bind_apply, onHeap, modifyGet_apply, ih, pure_apply]
    simp [Heap.allocCell, adjusted_succ, List.range'_succ]

/-- The frame of a function that was just entered. -/
def entryFrame (s : State) (p : Prototype) (closure floor : Nat) (expected : Option Nat)
    (args : List Value) : Frame where
  closure
  ip := 0
  base := floor
  cells := ((List.range' s.heap.cells.size p.arity).map some ++
    List.replicate (p.cellCount - p.arity) none).toArray
  varargs := if p.variadic then args.drop p.arity else []
  expected

/-- The machine with a function just entered. -/
def entered (s : State) (p : Prototype) (closure floor : Nat) (expected : Option Nat) : State :=
  let args := (s.stack.extract (floor + 1) s.stack.size).toList
  { s.truncate floor with
    heap := { s.heap with cells := s.heap.cells ++ adjusted args (some p.arity) }
    activations := .guest (entryFrame s p closure floor expected args) :: s.activations }

theorem enterClosure_apply {p : Prototype} {closure : Nat} {s : State} (hp : s.proto? closure = some p)
    (floor : Nat) (expected : Option Nat) :
    enterClosure closure floor expected s =
      if s.options.maxCallDepth ≤ s.activations.length then .error .stackOverflow s
      else .ok () (entered s p closure floor expected) := by
  unfold enterClosure checkDepth
  simp only [bind_apply, get_apply]
  by_cases hdepth : s.options.maxCallDepth ≤ s.activations.length
  · rw [if_pos hdepth, if_pos hdepth]
    rfl
  · rw [if_neg hdepth, if_neg hdepth]
    simp only [pure_apply, hp, bind_apply, get_apply, modify_apply, allocCells_apply]
    rfl

theorem enterNative_apply {natives : Array Native} {b : Native} {native : Nat}
    (hb : natives[native]? = some b) (floor argCount : Nat) (expected : Option Nat) (s : State) :
    enterNative natives native floor argCount expected s =
      if s.options.maxCallDepth ≤ s.activations.length then .error .stackOverflow s
      else .ok b { s with
        activations :=
          .native ⟨native, b.name, floor + 1, argCount, expected, .nothing⟩ :: s.activations } := by
  unfold enterNative checkDepth
  simp only [bind_apply, get_apply, hb]
  by_cases hdepth : s.options.maxCallDepth ≤ s.activations.length
  · rw [if_pos hdepth, if_pos hdepth]
    rfl
  · rw [if_neg hdepth, if_neg hdepth]
    rfl

theorem slot_of_enterNative {natives : Array Native} {b : Native} {slot floor argCount : Nat}
    {expected : Option Nat} {s x : State}
    (h : enterNative natives slot floor argCount expected s = .ok b x) : natives[slot]? = some b := by
  cases hslot : natives[slot]? with
  | none =>
    unfold enterNative at h
    obtain ⟨_, t, -, h⟩ := bind_eq_ok.mp h
    rw [hslot] at h
    cases h
  | some n =>
    rw [enterNative_apply hslot] at h
    split at h
    · cases h
    · cases h
      rfl

end MiniLua.Machine
