import MiniLua.Proofs.Calls.Transparent
import MiniLua.Proofs.Checked.Calls

/-!
Nothing that runs crashes: with enough memory for what there is, every operation of the machine and
of the builtins is used in its range, whatever the code is.
-/

namespace MiniLua.Checked

open Effects

def run (builtins : Array Builtin) : Nat → Mode → State → Option Run
  | 0, mode, s => some (.running mode s)
  | fuel + 1, mode, s => do
    match ← step builtins mode s with
    | .next mode s => run builtins fuel mode s
    | .halt result s => return .halted result s

/-- The arguments of a running builtin lay on the stack when it was called. -/
def Windows (calls : List Activation) : Prop :=
  ∀ call : NativeCall, .native call ∈ calls → call.base + call.argCount < 2 ^ 62

section

variable {s t : State} {builtins : Array Builtin} {calls calls' : List Activation}

theorem Windows.mono (h : Windows calls) (hsub : calls' ⊆ calls) : Windows calls' :=
  fun call hcall ↦ h call (hsub hcall)

theorem Windows.sameCalls (h : Windows calls) (hcalls : SameCalls calls calls') :
    Windows calls' := by
  cases hcalls with
  | refl => exact h
  | guest frame ip cells rest =>
    intro call hcall
    obtain hcall | hcall := List.mem_cons.mp hcall
    · cases hcall
    · exact h call (List.mem_cons_of_mem _ hcall)

theorem unwind_subset (floor : Nat) (calls : List Activation) :
    (Transition.unwind floor calls).2 ⊆ calls := by
  induction calls generalizing floor with
  | nil => exact List.Subset.refl _
  | cons activation rest ih =>
    cases activation with
    | guest frame => exact List.subset_cons_of_subset _ (ih frame.base)
    | native call => exact List.Subset.refl _

theorem windows_guestError (h : Windows s.activations) (e : RuntimeError) :
    Windows (Transition.guestError e s).state.activations := by
  obtain ⟨location, hlocation⟩ := noteLocation_eq s
  unfold Transition.guestError
  rw [hlocation]
  exact h.mono (unwind_subset _ _)

theorem windows_giveResults (h : Windows s.activations) (results : List Value)
    (expected : Option Nat) :
    Windows (Transition.giveResults results expected s).state.activations := by
  unfold Transition.giveResults
  split
  · have hcalls := (Machine.uses_placeResults results expected s).calls
    cases hplace : Machine.placeResults results expected s with
    | ok u t =>
      rw [hplace] at hcalls
      exact h.sameCalls hcalls
    | error e t =>
      rw [hplace] at hcalls
      exact windows_guestError (h.sameCalls hcalls) e
  · exact h

theorem windows_guestReturn (h : Windows s.activations) (results : List Value) :
    Windows (Transition.guestReturn results s).state.activations := by
  unfold Transition.guestReturn
  split
  · next frame rest hs =>
    refine windows_giveResults ?_ _ _
    exact h.mono (hs ▸ List.subset_cons_self _ rest)
  · exact h

theorem windows_nativeError (h : Windows s.activations) (e : RuntimeError) :
    Windows (Transition.nativeError e s).state.activations := by
  unfold Transition.nativeError
  split
  · next call rest hs =>
    have hrest : Windows rest := h.mono (hs ▸ List.subset_cons_self _ rest)
    split
    · exact windows_guestError (s := { s with activations := _ }) hrest e
    · exact hrest
  · exact h

theorem windows_nativeResults (h : Windows s.activations) :
    Windows (Transition.nativeResults s).state.activations := by
  unfold Transition.nativeResults
  split
  · next call rest hs =>
    refine windows_giveResults ?_ _ _
    exact h.mono (hs ▸ List.subset_cons_self _ rest)
  · exact h

theorem windows_afterNative {r : EStateM.Result RuntimeError State Outcome}
    (h : Windows (final r).activations) : Windows (Transition.afterNative r).state.activations := by
  cases r with
  | error e t => exact windows_nativeError h e
  | ok outcome t =>
    cases outcome with
    | finished => exact windows_nativeResults h
    | invoke callee args memo =>
      change Windows (Transition.remember memo t).activations
      unfold Transition.remember
      split
      · next call rest hs =>
        rw [final_ok, hs] at h
        intro call' hcall
        obtain hcall | hcall := List.mem_cons.mp hcall
        · cases hcall
          exact h call (List.mem_cons_self ..)
        · exact h call' (List.mem_cons_of_mem _ hcall)
      · exact h

theorem windows_served {m : Machine Outcome} (hm : Contained m) {call : NativeCall}
    {rest : List Activation} (hs : s.activations = .native call :: rest)
    (h : Windows s.activations) : Windows (Transition.afterNative (m s)).state.activations := by
  refine windows_afterNative ?_
  rw [(hm s call rest hs).1]
  exact h

theorem windows_enterCallee {fail : RuntimeError → State → Transition} {callee : Value}
    {floor argCount : Nat} {expected : Option Nat} (h : Windows s.activations)
    (hfail : ∀ e t, Windows t.activations → Windows (fail e t).state.activations)
    (hcalls : s.activations.length < 2 ^ 60) (hsize : s.stack.size < 2 ^ 62)
    (hstack : s.stack.size = floor + 1 + argCount) :
    Windows (Transition.enterCallee (builtins.map Builtin.native) fail callee floor argCount
      expected s).state.activations := by
  unfold Transition.enterCallee
  cases callee with
  | closure c =>
    dsimp only
    obtain ⟨e, he⟩ | ⟨frame, t, ht, -, hframe, -⟩ :=
      Machine.enterClosure_cases c floor expected s
    · rw [he]
      exact hfail e s h
    · rw [ht]
      change Windows t.activations
      rw [hframe]
      intro call hcall
      obtain hcall | hcall := List.mem_cons.mp hcall
      · cases hcall
      · exact h call hcall
  | native n =>
    dsimp only
    obtain ⟨e, -, hentered⟩ | ⟨b, call, hbase, hcount, -, hentered⟩ :=
      @enterNative_cases s builtins n _ _ _ hcalls (by omega : floor < 2 ^ 62)
    · rw [hentered]
      exact hfail e s h
    · rw [hentered]
      refine windows_served (b.contained.start) rfl fun call' hcall ↦ ?_
      obtain hcall | hcall := List.mem_cons.mp hcall
      · cases hcall
        omega
      · exact h call' hcall
  | nil | bool | int | float | string | table => exact hfail _ s h

theorem windows_step {mode : Mode} (hmode : Mode.InMemory mode) (hmem : State.InMemory s)
    (h : Windows s.activations) :
    Windows (MiniLua.step (builtins.map Builtin.native) mode s).state.activations := by
  have hsize := hmem.stack
  have hcalls := hmem.activations
  cases mode with
  | execute =>
    rw [Transition.step_execute]
    have hsame := (Machine.usesAt_instruction s).calls
    cases hrun : Machine.instruction s with
    | error e t =>
      rw [hrun] at hsame
      exact windows_guestError (h.sameCalls hsame) e
    | ok demand t =>
      rw [hrun] at hsame
      have ht : Windows t.activations := h.sameCalls hsame
      cases demand with
      | nothing => exact ht
      | ret results => exact windows_guestReturn ht results
      | call argCount expected =>
        obtain ⟨rfl, -⟩ := advance_of_call hrun
        change Windows (Transition.guestCall _ _ _ _).state.activations
        rw [Transition.guestCall_eq]
        split
        · exact windows_guestError ht _
        · have hstack := Machine.advance_stack s
          refine windows_enterCallee ht (fun e t ht ↦ windows_guestError ht e) ?_ ?_ ?_
          · rwa [length_advance]
          · rw [hstack]
            omega
          · omega
  | enter callee args =>
    have hargs : args.length < 2 ^ 60 := hmode
    change Windows (Transition.hostCall _ _ _ _).state.activations
    rw [Transition.hostCall_eq]
    dsimp only
    obtain ⟨location, hstart⟩ := Machine.exists_location s
    rw [hstart]
    generalize hplaced : ({ s with location } : State) = start
    have hactivations : start.activations = s.activations := by rw [← hplaced]
    have hstack : start.stack = s.stack := by rw [← hplaced]
    have hpushed := Machine.pushAll_activations (callee :: args) start
    cases hpush : Machine.pushAll (callee :: args) start with
    | error e t =>
      rw [hpush, final_error, hactivations] at hpushed
      exact hpushed.symm ▸ h
    | ok u t =>
      rw [hpush, final_ok, hactivations] at hpushed
      have ht : t.stack.size = s.stack.size + 1 + args.length := by
        rw [Machine.pushAll_eq_ok hpush, ← hstack]
        change (start.stack ++ callee :: args).size = _
        rw [Machine.size_appendList, List.length_cons]
        omega
      exact windows_enterCallee (hpushed.symm ▸ h) (fun _ _ hu ↦ hu) (hpushed.symm ▸ hcalls)
        (by omega) ht
  | deliver result =>
    change Windows (Transition.handOver _ _ _).state.activations
    unfold Transition.handOver
    split
    · next call rest hs =>
      rw [Array.getElem?_map]
      cases builtins[call.native]? with
      | none => exact windows_nativeError h _
      | some b => exact windows_served (b.contained.resume _ _) hs h
    · exact h

/-- A run that has the memory it takes never crashes. -/
theorem run_eq {n : Nat} {mode : Mode}
    (hmem : ∀ k < n, ∀ mode' t,
      MiniLua.run (builtins.map Builtin.native) k mode s = .running mode' t →
        Mode.InMemory mode' ∧ State.InMemory t) :
    run builtins n mode s = some (MiniLua.run (builtins.map Builtin.native) n mode s) := by
  induction n generalizing mode s with
  | zero => rfl
  | succ n ih =>
    obtain ⟨hmode, hs⟩ := hmem 0 (Nat.succ_pos n) mode s rfl
    rw [run, step_eq hmode hs, Option.bind_eq_bind, Option.bind_some, MiniLua.run]
    cases hstep : MiniLua.step (builtins.map Builtin.native) mode s with
    | halt result t => rfl
    | next mode' t =>
      refine ih fun k hk mode'' u hu ↦ hmem (k + 1) (Nat.succ_lt_succ hk) mode'' u ?_
      rw [MiniLua.run, hstep]
      exact hu

theorem windows_run {n : Nat} {mode mode' : Mode} (hw : Windows s.activations)
    (hmem : ∀ k < n, ∀ mode' t,
      MiniLua.run (builtins.map Builtin.native) k mode s = .running mode' t →
        Mode.InMemory mode' ∧ State.InMemory t)
    (hrun : MiniLua.run (builtins.map Builtin.native) n mode s = .running mode' t) :
    Windows t.activations := by
  induction n generalizing mode s with
  | zero =>
    cases hrun
    exact hw
  | succ n ih =>
    obtain ⟨hmode, hs⟩ := hmem 0 (Nat.succ_pos n) mode s rfl
    have hstepped : Windows (MiniLua.step (builtins.map Builtin.native) mode s).state.activations :=
      windows_step hmode hs hw
    rw [MiniLua.run] at hrun
    cases hstep : MiniLua.step (builtins.map Builtin.native) mode s with
    | halt result u =>
      rw [hstep] at hrun
      cases hrun
    | next mode'' u =>
      rw [hstep] at hrun hstepped
      refine ih hstepped (fun k hk m v hv ↦ hmem (k + 1) (Nat.succ_lt_succ hk) m v ?_) hrun
      rw [MiniLua.run, hstep]
      exact hv

end

/-- Decoding bytes without a source compiler ends with a prototype or an error. -/
theorem decode_cases (bytes : Bytes) (chunkName : String) (s : State) :
    (∃ main t p, Loading.decode bytes chunkName s = .ok main t ∧ t.heap.protos[main]? = some p) ∨
      ∃ e t, Loading.decode bytes chunkName s = .error e t := by
  cases hdecode : Loading.decode bytes chunkName s with
  | error e t => exact .inr ⟨e, t, rfl⟩
  | ok main t =>
    have hsize := Loading.size_of_decode hdecode
    exact .inl ⟨main, t, _, rfl, Array.getElem?_eq_getElem (by omega)⟩

/-- No code crashes the machine. Bytes that are decoded end as a prototype or an error. From any
state, whatever its code, stack, activations and closures are, the steps over operations that have
ranges do what the machine does, so that none of these operations is out of its range; and the
positions of the arguments of every builtin that runs are small. The same holds of every builtin by
itself, and the exponents in the texts of floats are small, too. All that is asked for is the memory
for what there is on the way. -/
theorem never_crashes (builtins : Array Builtin) (mode : Mode) (s : State) (n : Nat)
    (hw : Windows s.activations)
    (hmem : ∀ k < n, ∀ mode' t,
      MiniLua.run (builtins.map Builtin.native) k mode s = .running mode' t →
        Mode.InMemory mode' ∧ State.InMemory t) :
    (∀ bytes chunkName t,
      (∃ main u p, Loading.decode bytes chunkName t = .ok main u ∧ u.heap.protos[main]? = some p) ∨
        ∃ e u, Loading.decode bytes chunkName t = .error e u) ∧
    run builtins n mode s = some (MiniLua.run (builtins.map Builtin.native) n mode s) ∧
    (∀ mode' t, MiniLua.run (builtins.map Builtin.native) n mode s = .running mode' t →
      Windows t.activations) ∧
    (∀ (b : Builtin) (t : State), State.Short t → (builtin b).start t = total b.native.start t ∧
      ∀ memo result, (builtin b).resume memo result t = total (b.native.resume memo result) t) ∧
    ∀ bits b, Binary.ofBits? bits = some b →
      (Decimal.scientific b.ratio.1 b.ratio.2).exponent.natAbs < 2 ^ 31 := by
  refine ⟨decode_cases, run_eq hmem, fun _ _ hrun ↦ windows_run hw hmem hrun,
    fun b t ht ↦ ⟨start_eq ht b, fun memo result ↦ resume_eq b memo result t⟩, fun bits b hb ↦ ?_⟩
  obtain ⟨-, hlow, hhigh⟩ := Decimal.scientific_bounds (Decimal.finite_ratio hb)
  omega

theorem inMemory_of_undercut {t : State} (hstack : t.stack.size ≤ 2)
    (hcalls : t.activations.length ≤ 2) (hmulti : t.lastMulti = 0)
    (hstrings : t.heap.strings = .empty) (htables : t.heap.tables = #[])
    (hprotos : t.heap.protos = #[undercut]) : State.InMemory t where
  stack := by omega
  activations := by omega
  lastMulti := by omega
  strings := by
    unfold State.Short
    rw [hstrings]
    exact fun bytes hb ↦ absurd hb (Array.not_mem_empty bytes)
  tables := by
    rw [htables]
    exact fun table ht ↦ absurd ht (Array.not_mem_empty table)
  code := by
    rw [hprotos]
    intro p hp
    rw [Array.mem_singleton.mp hp]
    decide

/-- A chunk that takes the slot of the builtin which calls it ends in an error, as it should. -/
theorem never_crashes_undercut :
    ∃ mode t, run Builtin.all.toArray 3 (.enter (.closure 0) []) (calling undercut) =
      some (.running mode t) ∧ mode = .deliver (.error .operand) := by
  have hwindows : Windows (calling undercut).activations := by
    intro call hcall
    obtain hcall | hcall := List.mem_cons.mp hcall
    · cases hcall
      decide
    · cases hcall
  have hmem : ∀ k < 3, ∀ mode t,
      MiniLua.run (Builtin.all.toArray.map Builtin.native) k (.enter (.closure 0) [])
        (calling undercut) = .running mode t → Mode.InMemory mode ∧ State.InMemory t := by
    intro k hk mode t ht
    obtain rfl | rfl | rfl : k = 0 ∨ k = 1 ∨ k = 2 := by omega
    · cases ht
      exact ⟨(by decide : 0 < 2 ^ 60), inMemory_of_undercut (by decide) (by decide) rfl rfl rfl rfl⟩
    · cases ht
      exact ⟨trivial, inMemory_of_undercut (by decide) (by decide) rfl rfl rfl rfl⟩
    · cases ht
      exact ⟨trivial, inMemory_of_undercut (by decide) (by decide) rfl rfl rfl rfl⟩
  obtain ⟨-, hrun, -⟩ := never_crashes Builtin.all.toArray (.enter (.closure 0) []) (calling undercut)
    3 hwindows hmem
  exact ⟨_, _, hrun, rfl⟩

end MiniLua.Checked
