import MiniLua.Machine.Step
import MiniLua.Proofs.Effects

/-! What the primitives of the machine compute. -/

namespace MiniLua.Machine

open Effects

theorem push_apply (v : Value) (s : State) :
    push v s = if s.stack.size < s.options.maxStack
      then .ok () { s with stack := s.stack.push v } else .error .stackOverflow s := by
  simp only [push, bind_apply, get_apply]
  split <;> rfl

theorem pushAll_nil (s : State) : pushAll [] s = .ok ⟨⟩ s := rfl

theorem pushAll_cons (v : Value) (vs : List Value) :
    pushAll (v :: vs) = (do push v; pushAll vs) := rfl

/-- Values that were all pushed lie on top in their order. -/
theorem pushAll_eq_ok {vs : List Value} {s t : State} {a : Unit} (h : pushAll vs s = .ok a t) :
    t = { s with stack := s.stack ++ vs } := by
  induction vs generalizing s with
  | nil =>
    rw [pushAll_nil] at h
    cases h
    simp
  | cons v vs ih =>
    rw [pushAll_cons] at h
    obtain ⟨_, u, hpush, hrest⟩ := bind_eq_ok.mp h
    rw [push_apply] at hpush
    split at hpush
    · cases hpush
      simpa using ih hrest
    · cases hpush

theorem top_apply (s : State) :
    top s = match s.stack.back? with
      | some v => .ok v s
      | none => .error .operand s := by
  simp only [top, bind_apply, get_apply]
  cases s.stack.back? <;> rfl

theorem pop_apply (s : State) :
    pop s = match s.stack.back? with
      | some v => .ok v { s with stack := s.stack.pop }
      | none => .error .operand s := by
  simp only [pop, bind_apply, top_apply]
  cases s.stack.back? <;> rfl

theorem popMany_apply (n : Nat) (s : State) :
    popMany n s = if s.stack.size < n then .error .operand s
      else .ok (s.stack.extract (s.stack.size - n) s.stack.size).toList
        (s.truncate (s.stack.size - n)) := by
  simp only [popMany, bind_apply, get_apply]
  split <;> rfl

theorem changeFrame_apply (f : Frame → Frame) (s : State) :
    changeFrame f s = .ok () (match s.activations with
      | .guest frame :: rest => { s with activations := .guest (f frame) :: rest }
      | _ => s) := rfl

theorem orOperand_apply {α : Type} (v : Option α) (s : State) :
    orOperand v s = match v with
      | some a => .ok a s
      | none => .error .operand s := by
  cases v <;> rfl

theorem operandCount_apply (i : Instruction) (s : State) :
    operandCount i s = .ok (i.a.toNat + (if i.b = 0 then 0 else s.lastMulti)) s := rfl

/-- The innermost guest function moves on by one instruction. -/
def advance (s : State) : State :=
  match s.activations with
  | .guest frame :: rest =>
    { s with activations := .guest { frame with ip := frame.ip + 1 } :: rest }
  | _ => s

/-- A host at rest forgets the place of an earlier error before it makes a call. -/
theorem exists_location (s : State) : ∃ location,
    (if s.activations.isEmpty then { s with location := none } else s) = { s with location } := by
  split
  · exact ⟨none, rfl⟩
  · exact ⟨s.location, rfl⟩

theorem instruction_apply (s : State) :
    instruction s = match s.activations with
      | .guest frame :: _ =>
        match s.proto? frame.closure with
        | none => .error .noFunction s
        | some p =>
          match p.code[frame.ip]? with
          | none => .ok (.ret []) s
          | some i =>
            match i.opcode? with
            | none => .error (.opcode i.op) (advance s)
            | some op => perform frame p.constants i op (advance s)
      | _ => .error .noFunction s := by
  unfold instruction advance
  rw [bind_apply, get_apply]
  cases hs : s.activations with
  | nil =>
    simp only [hs]
    rfl
  | cons activation rest =>
    cases activation with
    | native call =>
      simp only [hs]
      rfl
    | guest frame =>
      simp only [hs, bind_apply, get_apply]
      cases s.proto? frame.closure with
      | none => rfl
      | some p =>
        dsimp only
        cases p.code[frame.ip]? with
        | none => rfl
        | some i =>
          simp only [bind_apply, changeFrame_apply, hs]
          cases i.opcode? <;> rfl

theorem instruction_of_guest {s : State} {frame : Frame} {rest : List Activation} {p : Prototype}
    {i : Instruction} {op : Opcode} (hs : s.activations = .guest frame :: rest)
    (hp : s.proto? frame.closure = some p) (hi : p.code[frame.ip]? = some i)
    (hop : i.opcode? = some op) :
    instruction s = perform frame p.constants i op (advance s) := by
  simp only [instruction_apply, hs, hp, hi, hop]

end MiniLua.Machine
