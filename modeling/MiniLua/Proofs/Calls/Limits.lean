import Mathlib.Logic.Relation
import MiniLua.Proofs.Calls.Tended
import MiniLua.Proofs.Checked.Calls
import MiniLua.Proofs.Stack.Runs

/-!
The limits on the stack and on the depth of calls. They hold whenever an instruction is about to be
executed and whenever the host has the machine back, whatever it did with the machine before.
-/

namespace MiniLua

open Effects Machine

/-- The stack is no higher than allowed, and calls nest no deeper. -/
structure State.WithinLimits (o : Options) (s : State) : Prop where
  options : s.options = o
  stack : s.stack.size ≤ o.maxStack
  depth : s.frames.length + s.nativeCalls.length ≤ o.maxCallDepth

/-- What a host does with a machine: it makes calls with builtins of the library, it runs programs
that call nothing, such as those that load code or set globals, and it puts places back. -/
inductive HostStep : State → State → Prop
  | call {natives : Array Native} {fuel : Nat} {callee : Value} {args : List Value}
      {result : Except RuntimeError (List Value)} {s t : State}
      (known : ∀ b ∈ natives, ∃ c : Builtin, b = c.native)
      (ends : callValue natives fuel callee args s = .halted result t) : HostStep s t
  | change {ε α : Type} (m : EStateM ε State α) [Modest m] (s : State) : HostStep s (final (m s))
  | note (s : State) (location : Option Location) : HostStep s { s with location }

/-- Installing the library is such a program. -/
instance (natives : Array Native) : Modest (Registry.install natives) := by
  have hplace (math : Value) (b : Builtin) (v : Value) : Modest (Registry.place math b v) := by
    unfold Registry.place
    split <;> infer_instance
  refine .after fun math ↦ ?_
  dsimp only
  exact .after fun _ ↦ .after fun _ ↦ .after fun _ ↦ inferInstance

/-- Loading from a reader function is a row of such steps. -/
theorem hostSteps_loadFrom {natives : Array Native} (hnatives : ∀ b ∈ natives, ∃ c : Builtin, b = c.native)
    {fuel rounds : Nat} {reader : Value} {chunkName : String} {text : Bytes} {s t : State}
    {r : Except LoadError Value}
    (h : Loading.loadFrom natives fuel reader chunkName rounds text s = some (r, t)) :
    Relation.ReflTransGen HostStep s t := by
  induction rounds generalizing text s with
  | zero => cases h
  | succ rounds ih =>
    unfold Loading.loadFrom at h
    split at h
    · cases h
    · next hcall =>
      cases h
      exact (Relation.ReflTransGen.single (.call hnatives hcall)).tail (.note _ _)
    · next hcall =>
      have hfirst := HostStep.call hnatives hcall
      split at h
      · exact (ih h).head hfirst
      · next u _ _ =>
        have hload := HostStep.change (Loading.loadBytes text chunkName) u
        split at h
        · next hrun =>
          cases h
          rw [hrun] at hload
          exact (Relation.ReflTransGen.single hfirst).tail hload
        · next hrun =>
          cases h
          rw [hrun] at hload
          exact (Relation.ReflTransGen.single hfirst).tail hload

section

variable {natives : Array Native} {o : Options} {s t : State}

/-- Nothing runs, and the limits hold. -/
structure State.Rests (o : Options) (s : State) : Prop where
  options : s.options = o
  calls : s.activations = []
  stack : s.stack.size ≤ o.maxStack

theorem State.Rests.within (h : s.Rests o) : s.WithinLimits o where
  options := h.options
  stack := h.stack
  depth := by simp [Checked.length_activations, h.calls]

section

variable (hnatives : ∀ b ∈ natives, ∃ c : Builtin, b = c.native) (h : s.Rests o) {callee : Value}
  {args : List Value}

include hnatives h

theorem State.Rests.tended {m : Mode} {k : Nat}
    (hrun : run natives k (.enter callee args) s = .running m t) :
    m.Tended natives o o.maxStack t := by
  obtain ⟨rfl, hcalls, hstack⟩ := h
  exact (Mode.Tended.enter hcalls hstack callee args).run hnatives (Nat.le_refl _) hrun

theorem State.Rests.of_halted {fuel : Nat} {result : Except RuntimeError (List Value)}
    (hrun : run natives fuel (.enter callee args) s = .halted result t) : t.Rests o := by
  obtain ⟨k, m, u, -, hrun, hlast⟩ := run_eq_halted hrun
  have htended := h.tended hnatives hrun
  obtain ⟨result', -, hcalls, hhalt⟩ | ⟨e, -, hfails⟩ | ⟨-, hnext⟩ :=
    htended.step hnatives (Nat.le_refl _)
  · cases hhalt.symm.trans hlast
    exact ⟨htended.state.options, hcalls, htended.fits⟩
  · rw [hlast] at hfails
    cases hfails
  · rw [hlast] at hnext
    cases hnext with
    | fails h => cases h

end

theorem State.Rests.host (h : s.Rests o) (hstep : HostStep s t) : t.Rests o := by
  cases hstep with
  | call known ends => exact h.of_halted known ends
  | change m =>
    have hmodest := Abides.keeps (R := State.Modest) (m := m) s
    refine ⟨hmodest.options.trans h.options, ?_, hmodest.fits.trans ?_⟩
    · have hcalls := hmodest.calls
      rw [h.calls] at hcalls
      generalize (final (m s)).activations = calls at hcalls
      cases hcalls
      rfl
    · rw [h.options]
      exact Nat.max_le.mpr ⟨h.stack, Nat.le_refl _⟩
  | note => exact ⟨h.options, h.calls, h.stack⟩

theorem State.Rests.hosts (h : s.Rests o) (hhost : Relation.ReflTransGen HostStep s t) : t.Rests o := by
  induction hhost with
  | refl => exact h
  | tail _ hstep ih => exact ih.host hstep

end

/-- From a machine in which nothing runs and the stack is within its limit: whatever the host does with
it, and whatever it then calls, the limits hold whenever an instruction is next, and they hold before
and after the call. -/
theorem limits_hold {s₀ s : State} (hidle : s₀.activations = [])
    (hroom : s₀.stack.size ≤ s₀.options.maxStack) (hhost : Relation.ReflTransGen HostStep s₀ s)
    {natives : Array Native} (hnatives : ∀ b ∈ natives, ∃ c : Builtin, b = c.native) (callee : Value)
    (args : List Value) (fuel : Nat) :
    s.WithinLimits s₀.options ∧
      (∀ t, run natives fuel (.enter callee args) s = .running .execute t →
        t.WithinLimits s₀.options) ∧
      ∀ result t, run natives fuel (.enter callee args) s = .halted result t →
        t.WithinLimits s₀.options := by
  have hrests : s.Rests s₀.options := State.Rests.hosts ⟨rfl, hidle, hroom⟩ hhost
  refine ⟨hrests.within, fun t hrun ↦ ?_, fun result t hrun ↦ ?_⟩
  · have htended := hrests.tended hnatives hrun
    refine ⟨htended.state.options, htended.fits, ?_⟩
    rw [Checked.length_activations]
    exact htended.state.depth
  · exact (hrests.of_halted hnatives hrun).within

/-- A function that pushes a value and returns it, in a machine with room for one call and one
value. -/
def tightState : State :=
  let p : Prototype := ⟨"one", 0, false, 0, #[⟨Opcode.loadTrue.byte, 0, 0, 0⟩, ⟨Opcode.ret.byte, 1, 0, 0⟩],
    #[], #[], #[], #[]⟩
  { State.start ⟨1, 1⟩ .empty true with heap := ⟨.empty, #[], #[p], #[⟨0, 0, #[]⟩], #[]⟩ }

/-- It is called a second time, and both limits are reached. -/
theorem limits_hold_tight : ∃ s t,
    tightState.activations = [] ∧ tightState.stack.size ≤ tightState.options.maxStack ∧
    Relation.ReflTransGen HostStep tightState s ∧
    run #[] 2 (.enter (.closure 0) []) s = .running .execute t ∧
    t.stack.size = 1 ∧ t.frames.length = 1 ∧ t.WithinLimits ⟨1, 1⟩ := by
  have hnone : ∀ b ∈ (#[] : Array Native), ∃ c : Builtin, b = c.native := by simp
  have hfirst : callValue #[] 5 (.closure 0) [] tightState = .halted (.ok [.bool true]) tightState := rfl
  obtain ⟨t, hrun, hstack, hframes⟩ : ∃ t, run #[] 2 (.enter (.closure 0) []) tightState =
      .running .execute t ∧ t.stack.size = 1 ∧ t.frames.length = 1 := ⟨_, rfl, rfl, rfl⟩
  have hhost := Relation.ReflTransGen.single (HostStep.call hnone hfirst)
  have hidle : tightState.activations = [] := rfl
  obtain ⟨-, hwithin, -⟩ := limits_hold hidle (Nat.zero_le 1) hhost hnone (.closure 0) [] 2
  exact ⟨_, t, rfl, Nat.zero_le 1, hhost, hrun, hstack, hframes, hwithin t hrun⟩

end MiniLua
