import MiniLua.Proofs.Checked.Programs
import MiniLua.Proofs.Machine.Quiet

/-!
Instructions over operations that have ranges. The running guest function is looked up by its place
among the activations whenever an instruction needs it; nothing an instruction does moves it.
-/

namespace MiniLua.Checked

open Effects

def arithmetic (op : Opcode) : Program Unit := do
  let b ← total Machine.pop
  let a ← total Machine.pop
  let result ← ranged (arith (← get).heap op a b)
  total do Machine.push (← Machine.lift result)

def jumpKeeping (index : Nat) (keep : Value → Bool) (x : Nat) : Program Unit := do
  if keep (← total Machine.top) then goTo index x else discard (total Machine.pop)

def loopCells (index x : Nat) : Program Machine.LoopCells := do
  let limit ← word (x + 1)
  let step ← word (x + 2)
  let frame ← frameAt index
  total do
    return ⟨← Machine.frameCell frame x, ← Machine.frameCell frame limit,
      ← Machine.frameCell frame step⟩

def loopNumber (v : Value) (what : String) : Program Value := do
  match ← ranged (number (← get).heap v) with
  | some n => return n
  | none => throw (.error (.type (.loopNumber what)))

/-- Integers stay integers only if all three are. -/
def prepareLoop (cells : Machine.LoopCells) : Program Unit := do
  let h := (← get).heap
  let counter ← loopNumber (h.cell cells.counter) "initial value"
  let limit ← loopNumber (h.cell cells.limit) "limit"
  let step ← loopNumber (h.cell cells.step) "step"
  let store (cell : Nat) (v : Value) : Program Unit :=
    total (Machine.changeHeap fun h ↦ h.setCell cell v)
  match counter, limit, step with
  | .int _, .int _, .int _ =>
    store cells.counter counter
    store cells.limit limit
    store cells.step step
  | _, _, _ =>
    store cells.counter (.ofFloat counter.toFloat)
    store cells.limit (.ofFloat limit.toFloat)
    store cells.step (.ofFloat step.toFloat)

/-- Instructions not listed here need no operation that has a range. -/
def perform (index : Nat) (constants : Array Value) (i : Instruction) (op : Opcode) :
    Program Machine.Demand := do
  match op with
  | .newCell =>
    let v ← total Machine.pop
    let cell ← total (Machine.onHeap fun h ↦ h.allocCell v)
    let frame ← frameAt index
    if i.x < frame.cells.size then
      changeFrame index fun f ↦ { f with cells := f.cells.setIfInBounds i.x (some cell) }
    else operandError
  | .getGlobal =>
    let key ← total (Machine.orOperand constants[i.x]?)
    let env ← total (Machine.environment (← frameAt index))
    let v ← ranged (rawGet (← get).heap env key)
    total (Machine.push v)
  | .setGlobal =>
    let key ← total (Machine.orOperand constants[i.x]?)
    let env ← total (Machine.environment (← frameAt index))
    let v ← total Machine.pop
    setIndex env key v
  | .getIndex =>
    let key ← total Machine.pop
    let object ← total Machine.pop
    let v ← Checked.index object key
    total (Machine.push v)
  | .setIndex =>
    let key ← total Machine.pop
    let object ← total Machine.pop
    let v ← total Machine.pop
    setIndex object key v
  | .initIndex =>
    let value ← total Machine.pop
    let key ← total Machine.pop
    let table ← total Machine.top
    setIndex table key value
  | .setList => fillTable i.x
  | .self =>
    let key ← total (Machine.orOperand constants[i.x]?)
    let object ← total Machine.pop
    let v ← Checked.index object key
    total (Machine.push v)
    total (Machine.push object)
  | .neg =>
    let h := (← get).heap
    let v ← total Machine.pop
    let result ← ranged (negate h v)
    let result ← total (Machine.lift result)
    total (Machine.push result)
  | .add | .sub | .mul | .div | .mod | .pow => arithmetic op
  | .jump => goTo index i.x
  | .jumpIfFalse => if (← total Machine.pop).isFalsey then goTo index i.x
  | .jumpIfFalseKeep => jumpKeeping index Value.isFalsey i.x
  | .jumpIfTrueKeep => jumpKeeping index Value.isTruthy i.x
  | .pop => discard (popMany i.a.toNat)
  | .forPrep => prepareLoop (← loopCells index i.x)
  | .forTest =>
    let h := (← get).heap
    let cells ← loopCells index i.x
    total (Machine.push (.bool (Machine.loopGoes h cells)))
  | .forStep => total (Machine.advanceLoop (← loopCells index i.x))
  | .call =>
    let c := i.c.toNat
    return .call (← operandCount i) (if c = 0 then none else some (c - 1))
  | .ret => return .ret (← popMany (← operandCount i))
  | .varargs =>
    let a := i.a.toNat
    let frame ← frameAt index
    total (Machine.placeResults frame.varargs (if a = 0 then none else some (a - 1)))
  | .closure =>
    let frame ← frameAt index
    let v ← total (Machine.makeClosure frame i.x)
    total (Machine.push v)
  | op =>
    let frame ← frameAt index
    return ← total (Machine.perform frame constants i op)
  return .nothing

/-- Executes the next instruction of the innermost guest function. -/
def instruction : Program Machine.Demand := do
  match (← get).activations with
  | .guest _ :: _ =>
    let index := (← get).frames.length - 1
    let frame ← frameAt index
    match (← get).proto? frame.closure with
    | none => throw (.error .noFunction)
    | some p =>
      match p.code[frame.ip]? with
      | none => return .ret []
      | some i =>
        let next ← word (frame.ip + 1)
        goTo index next
        match i.opcode? with
        | none => throw (.error (.opcode i.op))
        | some op => perform index p.constants i op
  | _ => throw (.error .noFunction)

section

variable {s t : State} {index : Nat} {frame : Frame} {α β : Type}

/-! ### What an instruction does to the state so far -/

/-- The same activations and tables, and the same multi result. -/
structure State.Steady (s t : State) : Prop where
  activations : t.activations = s.activations
  tables : t.heap.tables = s.heap.tables
  lastMulti : t.lastMulti = s.lastMulti

theorem State.Steady.roomy {n : Nat} (h : State.Steady s t) (hs : State.Roomy s n) :
    State.Roomy t n := by
  intro table htable
  rw [h.tables] at htable
  exact hs table htable

theorem steady_pop {v : Value} (h : Machine.pop s = .ok v t) : State.Steady s t := by
  rw [Machine.pop_apply] at h
  split at h
  · cases h
    exact ⟨rfl, rfl, rfl⟩
  · cases h

theorem pop_bind_total {f : Value → Program β} {g : Value → Machine β}
    (h : ∀ v t, State.Steady s t → f v t = total (g v) t) :
    (total Machine.pop >>= f) s = total (Machine.pop >>= g) s :=
  total_bind_total fun v t ht ↦ h v t (steady_pop ht)

theorem top_bind_total {f : Value → Program β} {g : Value → Machine β}
    (h : ∀ v, f v s = total (g v) s) : (total Machine.top >>= f) s = total (Machine.top >>= g) s := by
  refine total_bind_total fun v t ht ↦ ?_
  rw [Machine.top_apply] at ht
  split at ht
  · cases ht
    exact h _
  · cases ht

theorem orOperand_bind_total {v : Option α} {f : α → Program β} {g : α → Machine β}
    (h : ∀ a, f a s = total (g a) s) :
    (total (Machine.orOperand v) >>= f) s = total (Machine.orOperand v >>= g) s := by
  refine total_bind_total fun a t ht ↦ ?_
  rw [Machine.orOperand_apply] at ht
  split at ht
  · cases ht
    exact h _
  · cases ht

theorem environment_bind_total {f : Value → Program β} {g : Value → Machine β}
    (h : ∀ v, f v s = total (g v) s) :
    (total (Machine.environment frame) >>= f) s = total (Machine.environment frame >>= g) s := by
  refine total_bind_total fun v t ht ↦ ?_
  unfold Machine.environment at ht
  rw [bind_apply, get_apply] at ht
  cases hc : s.heap.closures[frame.closure]? with
  | none =>
    simp only [hc] at ht
    cases ht
  | some c =>
    simp only [hc] at ht
    cases ht
    exact h _

/-! ### Instructions with a range to keep to -/

theorem discard_total {c : Program α} {m : Machine α} (h : c s = total m s) :
    discard c s = total (discard m) s := by
  change (Functor.map (Function.const α PUnit.unit) c) s =
    total (Functor.map (Function.const α PUnit.unit) m) s
  rw [map_apply, h, total, total, map_apply]
  cases m s <;> rfl

theorem arithmetic_eq {op : Opcode}
    (hop : op ∈ [Opcode.add, .sub, .mul, .div, .mod, .pow]) (s : State) :
    arithmetic op s = total (Machine.binary op) s := by
  unfold arithmetic Machine.binary
  refine pop_bind_total fun b t _ ↦ pop_bind_total fun a u _ ↦ get_bind_total ?_
  rw [arith_eq, ranged_bind rfl]
  simp only [List.mem_cons, List.not_mem_nil, or_false] at hop
  obtain rfl | rfl | rfl | rfl | rfl | rfl := hop <;> rfl

theorem jumpKeeping_eq (h : Running index frame s) (keep : Value → Bool) (x : Nat) :
    jumpKeeping index keep x s = total (Machine.jumpKeeping keep x) s := by
  refine top_bind_total fun v ↦ ?_
  split
  · exact goTo_eq h x
  · exact total_bind_total fun _ _ _ ↦ rfl

theorem loopCells_eq (h : Running index frame s) {x : Nat} (hx : x < Instruction.wideLimit) :
    loopCells index x s = total (Machine.loopCells frame x) s := by
  unfold Instruction.wideLimit at hx
  rw [loopCells, word_bind (by omega), word_bind (by omega), frameAt_bind h]
  rfl

theorem loopNumber_eq (v : Value) (what : String) (s : State) :
    loopNumber v what s = total (Machine.loopNumber v what) s := by
  refine get_bind_total ?_
  rw [number_eq, ranged_bind rfl]
  cases s.heap.number? v <;> rfl

theorem prepareLoop_eq (cells : Machine.LoopCells) (s : State) :
    prepareLoop cells s = total (Machine.prepareLoop cells) s := by
  refine get_bind_total (bind_total (loopNumber_eq _ _ _) fun counter t _ ↦
    bind_total (loopNumber_eq _ _ _) fun limit u _ ↦
      bind_total (loopNumber_eq _ _ _) fun step v _ ↦ ?_)
  cases counter with
  | int =>
    cases limit with
    | int => cases step <;> exact total_bind_total fun _ _ _ ↦ total_bind_total fun _ _ _ ↦ rfl
    | _ => exact total_bind_total fun _ _ _ ↦ total_bind_total fun _ _ _ ↦ rfl
  | _ => exact total_bind_total fun _ _ _ ↦ total_bind_total fun _ _ _ ↦ rfl

/-- The instruction pointer is not read. -/
theorem perform_ip (frame : Frame) (ip : Nat) (constants : Array Value) (i : Instruction)
    (op : Opcode) :
    Machine.perform { frame with ip } constants i op = Machine.perform frame constants i op := by
  cases op <;> rfl

theorem perform_eq (h : Running index frame s) (hmulti : s.lastMulti < 2 ^ 63)
    (hstack : s.stack.size < 2 ^ 62) (hroomy : State.Roomy s (s.stack.size + 1)) (constants : Array Value) (i : Instruction)
    (op : Opcode) :
    perform index constants i op s = total (Machine.perform frame constants i op) s := by
  have hx := i.x_lt
  have hroom : State.Roomy s 1 := fun table htable ↦ by
    have hroom := hroomy table htable
    omega
  have hlist : State.Roomy s s.stack.size := fun table htable ↦ by
    have hroom := hroomy table htable
    omega
  have hword : Instruction.wideLimit < 2 ^ 62 := by decide
  cases op with
  | loadNil | loadTrue | loadFalse | loadConst | getCell | setCell | getUpvalue | setUpvalue
  | newTable | not | len | concat | eq | ne | lt | le | gt | ge => exact frameAt_bind h _
  | newCell =>
    refine pop_bind_total fun v t ht ↦ total_bind_total fun cell u hu ↦ ?_
    have hrunning : Running index frame u := by
      cases hu
      exact h.of_activations ht.activations
    rw [frameAt_bind hrunning]
    split
    · exact bind_total (changeFrame_eq hrunning _) fun _ _ _ ↦ rfl
    · rfl
  | getGlobal =>
    refine orOperand_bind_total fun key ↦ ?_
    rw [frameAt_bind h]
    refine environment_bind_total fun env ↦ get_bind_total ?_
    rw [rawGet_eq, ranged_bind rfl]
    exact total_bind_total fun _ _ _ ↦ rfl
  | setGlobal =>
    refine orOperand_bind_total fun key ↦ ?_
    rw [frameAt_bind h]
    exact environment_bind_total fun env ↦ pop_bind_total fun v t ht ↦
      bind_total (setIndex_eq (ht.roomy hroom) _ _ _) fun _ _ _ ↦ rfl
  | getIndex =>
    exact pop_bind_total fun key t _ ↦ pop_bind_total fun object u _ ↦
      bind_total (index_eq _ _ _) fun _ _ _ ↦ total_bind_total fun _ _ _ ↦ rfl
  | setIndex =>
    exact pop_bind_total fun key t ht ↦ pop_bind_total fun object u hu ↦ pop_bind_total fun v w hw ↦
      bind_total (setIndex_eq (hw.roomy (hu.roomy (ht.roomy hroom))) _ _ _) fun _ _ _ ↦ rfl
  | initIndex =>
    exact pop_bind_total fun value t ht ↦ pop_bind_total fun key u hu ↦ top_bind_total fun table ↦
      bind_total (setIndex_eq (hu.roomy (ht.roomy hroom)) _ _ _) fun _ _ _ ↦ rfl
  | setList => exact bind_total (fillTable_eq (by omega) hstack hlist) fun _ _ _ ↦ rfl
  | self =>
    exact orOperand_bind_total fun key ↦ pop_bind_total fun object t _ ↦
      bind_total (index_eq _ _ _) fun _ _ _ ↦ total_bind_total fun _ _ _ ↦
        total_bind_total fun _ _ _ ↦ rfl
  | neg =>
    refine get_bind_total (pop_bind_total fun v t ht ↦ ?_)
    rw [negate_eq, ranged_bind rfl]
    exact total_bind_total fun _ _ _ ↦ total_bind_total fun _ _ _ ↦ rfl
  | add | sub | mul | div | mod | pow =>
    exact bind_total (arithmetic_eq (by decide) s) fun _ _ _ ↦ rfl
  | jump => exact bind_total (goTo_eq h _) fun _ _ _ ↦ rfl
  | jumpIfFalse =>
    refine pop_bind_total fun v t ht ↦ ?_
    split
    · exact bind_total (goTo_eq (h.of_activations ht.activations) _) fun _ _ _ ↦ rfl
    · rfl
  | jumpIfFalseKeep | jumpIfTrueKeep =>
    exact bind_total (jumpKeeping_eq h _ _) fun _ _ _ ↦ rfl
  | pop => exact bind_total (discard_total (popMany_eq _ _)) fun _ _ _ ↦ rfl
  | forPrep =>
    exact bind_total (loopCells_eq h hx) fun _ _ _ ↦
      bind_total (prepareLoop_eq _ _) fun _ _ _ ↦ rfl
  | forTest =>
    exact get_bind_total (bind_total (loopCells_eq h hx) fun _ _ _ ↦
      total_bind_total fun _ _ _ ↦ rfl)
  | forStep =>
    exact bind_total (loopCells_eq h hx) fun _ _ _ ↦ total_bind_total fun _ _ _ ↦ rfl
  | call => exact bind_total (operandCount_eq hmulti i) fun _ _ _ ↦ rfl
  | ret =>
    exact bind_total (operandCount_eq hmulti i) fun _ _ _ ↦
      bind_total (popMany_eq _ _) fun _ _ _ ↦ rfl
  | varargs => exact (frameAt_bind h _).trans (total_bind_total fun _ _ _ ↦ rfl)
  | closure =>
    exact (frameAt_bind h _).trans (total_bind_total fun _ _ _ ↦ total_bind_total fun _ _ _ ↦ rfl)

theorem proto?_mem {c : Nat} {p : Prototype} (h : s.proto? c = some p) : p ∈ s.heap.protos := by
  obtain ⟨closure, -, hp⟩ := Option.bind_eq_some_iff.mp h
  exact Array.mem_of_getElem? hp

/-- The count of a guest function among the activations is one more than its place. -/
theorem running_of_guest {rest : List Activation} (h : s.activations = .guest frame :: rest) :
    Running (s.frames.length - 1) frame s where
  innermost := ⟨rest, h⟩
  count := by
    rw [frames_of_guest h, List.length_cons]
    rfl

theorem instruction_eq (hmulti : s.lastMulti < 2 ^ 63) (hstack : s.stack.size < 2 ^ 62)
    (hroomy : State.Roomy s (s.stack.size + 1))
    (hcode : ∀ p ∈ s.heap.protos, p.code.size < 2 ^ 63) :
    instruction s = total Machine.instruction s := by
  unfold instruction Machine.instruction
  refine get_bind_total ?_
  cases hs : s.activations with
  | nil => rfl
  | cons activation rest =>
    cases activation with
    | native call => rfl
    | guest frame =>
      have hrunning := running_of_guest hs
      change (frameAt (s.frames.length - 1) >>= _) s = _
      generalize s.frames.length - 1 = index at hrunning ⊢
      rw [frameAt_bind hrunning]
      refine get_bind_total ?_
      cases hp : s.proto? frame.closure with
      | none => rfl
      | some p =>
        cases hi : p.code[frame.ip]? with
        | none => simp only [hi]; rfl
        | some i =>
          have hip := (Array.getElem?_eq_some_iff.mp hi).1
          have hsize := hcode p (proto?_mem hp)
          simp only [hi]
          rw [word_bind (by omega)]
          have hnext : goTo index (frame.ip + 1) s =
              total (Machine.changeFrame fun f ↦ { f with ip := f.ip + 1 }) s := by
            rw [goTo_eq hrunning, total, total, Machine.goTo, Machine.changeFrame_apply,
              Machine.changeFrame_apply, hs]
          refine bind_total hnext fun _ t ht ↦ ?_
          rw [Machine.changeFrame_apply, hs] at ht
          cases ht
          cases i.opcode? with
          | none => rfl
          | some op =>
            dsimp only
            rw [← perform_ip frame (frame.ip + 1)]
            have hcount := hrunning.count
            rw [frames_of_guest hs] at hcount
            have hadvanced : Running index { frame with ip := frame.ip + 1 }
                { s with activations := .guest { frame with ip := frame.ip + 1 } :: rest } :=
              ⟨⟨rest, rfl⟩, hcount⟩
            exact perform_eq hadvanced hmulti hstack hroomy _ _ _

end

end MiniLua.Checked
