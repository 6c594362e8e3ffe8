import MiniLua.Proofs.Calls.Transparent
import MiniLua.Proofs.Code.Returned
import MiniLua.Proofs.Machine.Performed
import MiniLua.Proofs.Memory.Extremes

/-!
Calls that the host makes on a machine at rest: of a builtin that leaves its results in the place of its
arguments, and of a function that returns a constant.
-/

namespace MiniLua

open Effects Machine

/-- Nothing is running, and there is room for a call of so many values. -/
structure State.Ready (size : Nat) (s : State) : Prop where
  idle : s.activations = []
  depth : 0 < s.options.maxCallDepth
  room : s.stack.size + size ≤ s.options.maxStack

theorem Machine.pushAll_of_room (vs : List Value) {s : State} (h : s.stack.size + vs.length ≤ s.options.maxStack) :
    pushAll vs s = .ok () { s with stack := s.stack ++ vs } := by
  induction vs generalizing s with
  | nil => simp [pushAll_nil]
  | cons v vs ih =>
    rw [List.length_cons] at h
    have hpush : push v s = .ok () { s with stack := s.stack.push v } := by
      rw [push_apply, if_pos (by omega)]
    rw [pushAll_cons, bind_of_ok hpush, ih (by simp only [Array.size_push]; omega)]
    simp

/-- Values that were pushed had room. -/
theorem Machine.room_of_pushAll {v : Value} {vs : List Value} {s t : State} (h : pushAll (v :: vs) s = .ok () t) :
    s.stack.size + (vs.length + 1) ≤ s.options.maxStack := by
  induction vs generalizing v s with
  | nil =>
    obtain ⟨_, u, hpush, -⟩ := bind_eq_ok.mp h
    rw [push_apply] at hpush
    split at hpush
    · next hroom => exact hroom
    · cases hpush
  | cons w vs ih =>
    obtain ⟨_, u, hpush, hrest⟩ := bind_eq_ok.mp h
    rw [push_apply] at hpush
    split at hpush
    · cases hpush
      have hroom := ih hrest
      rw [Array.size_push] at hroom
      rw [List.length_cons]
      exact Nat.le_trans (by omega) hroom
    · cases hpush

section

variable {natives : Array Native} {s : State} {args : List Value}

/-- The machine at a call that the host has just made. -/
def State.pushed (s : State) (callee : Value) (args : List Value) : State :=
  { s with location := none, stack := s.stack ++ (callee :: args) }

theorem State.Ready.pushed (hs : s.Ready (args.length + 1)) (callee : Value) :
    pushAll (callee :: args) (if s.activations.isEmpty then { s with location := none } else s) =
        .ok () (s.pushed callee args) ∧
      ¬ s.options.maxCallDepth ≤ s.activations.length := by
  have hempty : s.activations.isEmpty = true := by
    rw [hs.idle]
    rfl
  refine ⟨?_, ?_⟩
  · rw [if_pos hempty]
    exact pushAll_of_room (callee :: args) (s := { s with location := none }) hs.room
  · rw [hs.idle]
    exact Nat.not_le.mpr hs.depth

theorem hostCall_closure (hs : s.Ready (args.length + 1)) {closure : Nat} {p : Prototype}
    (hp : s.proto? closure = some p) : Transition.hostCall natives (.closure closure) args s =
      .next .execute (entered (s.pushed (.closure closure) args) p closure s.stack.size none) := by
  obtain ⟨hpush, hdepth⟩ := hs.pushed (.closure closure)
  have henter := (enterClosure_apply (s := s.pushed (.closure closure) args) hp s.stack.size none).trans
    (if_neg hdepth)
  unfold Transition.hostCall
  dsimp only
  rw [hpush]
  dsimp only
  rw [henter]

/-- A builtin that the host has just called. -/
def State.started (s : State) (native : Nat) (b : Native) (args : List Value) : State :=
  { s.pushed (.native native) args with
    activations := [.native ⟨native, b.name, s.stack.size + 1, args.length, none, .nothing⟩] }

theorem hostCall_native (hs : s.Ready (args.length + 1)) {native : Nat} {b : Native}
    (hb : natives[native]? = some b) : Transition.hostCall natives (.native native) args s =
      Transition.afterNative (b.start (s.started native b args)) := by
  obtain ⟨hpush, hdepth⟩ := hs.pushed (.native native)
  have henter := (enterNative_apply hb s.stack.size args.length none (s.pushed (.native native) args)).trans
    (if_neg hdepth)
  unfold Transition.hostCall
  dsimp only
  rw [hpush]
  dsimp only
  rw [henter]
  dsimp only
  rw [State.started, State.pushed, hs.idle]

theorem run_deliver (hs : s.activations = []) (fuel : Nat) (result : Except RuntimeError (List Value)) :
    run natives (fuel + 1) (.deliver result) s = .halted result s := by
  rw [run, step, Transition.handOver, hs]

theorem arguments_started (s : State) (native : Nat) (b : Native) (args : List Value) :
    (s.started native b args).arguments = args := by
  apply List.ext_getElem
  · simp [State.arguments, State.native?, State.started]
  · intro i hi hi'
    have hplace : s.stack.size + 1 + i - s.stack.size = i + 1 := by omega
    have hread : (s.stack ++ (Value.native native :: args))[s.stack.size + 1 + i]? = some args[i] := by
      rw [← Array.getElem?_toList, Array.toList_appendList,
        List.getElem?_append_right (by rw [Array.length_toList]; omega), Array.length_toList, hplace,
        List.getElem?_cons_succ, List.getElem?_eq_getElem hi']
    simp only [State.arguments, State.native?, State.started, State.pushed, List.findSome?_cons,
      List.getElem_map, List.getElem_range, Array.getD_eq_getD_getElem?, hread, Option.getD_some]

theorem Machine.setResults_started (s : State) (native : Nat) (b : Native) (args results : List Value) :
    setResults results (s.started native b args) = .ok ()
      { s.started native b args with stack := s.stack.push (.native native) ++ results } := by
  have hstack : (s.started native b args).stack = s.stack.push (.native native) ++ args :=
    Array.appendList_cons
  have hshrink : (s.started native b args).stack.shrink (s.stack.size + 1) = s.stack.push (.native native) := by
    rw [hstack, ← Array.size_push (.native native), shrink_appendList]
  have hset : setResults results (s.started native b args) = .ok () { s.started native b args with
      stack := (s.started native b args).stack.shrink (s.stack.size + 1) ++ results } := rfl
  rw [hset, hshrink]

/-- What a builtin puts in the place of its arguments is what its caller gets. -/
theorem callValue_native (hs : s.Ready (args.length + 1)) {native : Nat} {b : Native} {results : List Value}
    (hb : natives[native]? = some b)
    (hstart : ∀ t : State, t.arguments = args → t.heap = s.heap →
      b.start t = (do setResults results; return .finished : Machine Outcome) t) (fuel : Nat) :
    ∃ t, callValue natives (fuel + 2) (.native native) args s = .halted (.ok results) t := by
  have hset := hstart _ (arguments_started s native b args) rfl
  rw [bind_of_ok (setResults_started s native b args results)] at hset
  have hresults : ((s.stack.push (.native native) ++ results).extract (s.stack.size + 1)
      (s.stack.push (.native native) ++ results).size).toList = results := by
    rw [← Array.size_push (.native native), extract_appendList]
  have hstep : step natives (.enter (.native native) args) s = .next (.deliver (.ok results))
      ({ s.started native b args with
        stack := s.stack.push (.native native) ++ results, activations := [] }.truncate s.stack.size) := by
    rw [step, hostCall_native hs hb, hset]
    exact congrArg (fun r ↦ Transition.next (.deliver (.ok r)) _) hresults
  exact ⟨_, (run_of_next hstep (fuel + 1)).trans (run_deliver rfl fuel _)⟩

theorem Machine.arg_eq (i : Nat) (s : State) : arg i s = .ok (s.arguments.getD i .nil) s := by
  cases hcall : s.native? with
  | none =>
    have hnone : arg i s = .ok .nil s := by
      rw [arg, bind_apply, get_apply]
      dsimp only
      rw [hcall]
      rfl
    simp [hnone, State.arguments, hcall]
  | some call =>
    rw [arg_apply hcall, State.arguments, hcall]
    dsimp only
    split
    · next hi => simp [List.getD, hi]
    · next hi => simp [List.getD, hi]

theorem Native.plain_start (name : String) {body body' : Machine Unit} (h : body s = body' s) :
    (Native.plain name body).start s = (do body'; return .finished : Machine Outcome) s := by
  unfold Native.plain
  dsimp only
  rw [bind_apply, bind_apply, h]

theorem run_constant {f : Frame} {line : Nat} {v : Value} (hs : s.activations = [.guest f])
    (hp : s.proto? f.closure = some (constantFunction v line)) (hip : f.ip = 0)
    (hroom : s.stack.size < s.options.maxStack) (fuel : Nat) :
    ∃ t, run natives (fuel + 3) .execute s = .halted (.ok [v]) t := by
  have hcode : (constantFunction v line).code[f.ip]? = some (.wide Opcode.loadConst.byte 0) := by
    rw [hip]
    rfl
  have hload : instruction s = .ok .nothing { s with
      activations := [.guest { f with ip := 1 }], stack := s.stack ++ [v] } := by
    have hadvance : advance s = { s with activations := [.guest { f with ip := 1 }] } := by
      rw [advance, hs]
      dsimp only
      rw [hip]
    have hpush := pushAll_of_room [v] (s := advance s) (by rw [hadvance]; exact hroom)
    have hconst : (constantFunction v line).constants[(Instruction.wide Opcode.loadConst.byte 0).x]? =
        some v := by
      rw [Instruction.x_wide]
      rfl
    have hop : (Instruction.wide Opcode.loadConst.byte 0).opcode? = some .loadConst := by decide
    rw [instruction_of_guest hs hp hcode hop, perform_loadConst hconst, give,
      bind_of_ok hpush, hadvance]
    rfl
  have hret : instruction { s with activations := [.guest { f with ip := 1 }], stack := s.stack ++ [v] } =
      .ok (.ret [v]) { s with activations := [.guest { f with ip := 2 }] } := by
    rw [instruction_of_guest (s := { s with activations := [.guest { f with ip := 1 }], stack := s.stack ++ [v] })
      (i := ⟨Opcode.ret.byte, 1, 0, 0⟩) rfl hp rfl rfl]
    exact perform_ret (S := s.stack) rfl rfl
  have hfirst : step natives .execute s = .next .execute { s with
      activations := [.guest { f with ip := 1 }], stack := s.stack ++ [v] } := by
    rw [step, hload]
  have hsecond : step natives .execute { s with
      activations := [.guest { f with ip := 1 }], stack := s.stack ++ [v] } =
      .next (.deliver (.ok [v])) ({ s with activations := [] }.truncate f.base) := by
    rw [step, hret]
    rfl
  rw [run_of_next hfirst, run_of_next hsecond]
  exact ⟨_, run_deliver rfl fuel _⟩

theorem callValue_constant (hs : s.Ready 1) {closure line : Nat} {v : Value}
    (hp : s.proto? closure = some (constantFunction v line)) (fuel : Nat) :
    ∃ t, callValue natives (fuel + 4) (.closure closure) [] s = .halted (.ok [v]) t := by
  have hcall : s.Ready (([] : List Value).length + 1) := hs
  have henter : step natives (.enter (.closure closure) []) s =
      .next .execute (entered (s.pushed (.closure closure) []) (constantFunction v line) closure s.stack.size
        none) := by
    rw [step]
    exact hostCall_closure hcall hp
  have hroom := hs.room
  have hsize : (entered (s.pushed (.closure closure) []) (constantFunction v line) closure s.stack.size
      none).stack.size < s.options.maxStack := by
    simp only [entered, State.truncate, Array.size_shrink, State.pushed, size_appendList]
    rw [List.length_singleton]
    omega
  have hcalls : ∃ f, f.closure = closure ∧ f.ip = 0 ∧ (entered (s.pushed (.closure closure) [])
      (constantFunction v line) closure s.stack.size none).activations = [.guest f] := by
    rw [entered, State.pushed, hs.idle]
    exact ⟨_, rfl, rfl, rfl⟩
  obtain ⟨f, rfl, hip, hcalls⟩ := hcalls
  rw [callValue, run_of_next henter]
  exact run_constant hcalls hp hip hsize fuel

end
end MiniLua
