import MiniLua.Proofs.Calls.Tended
import MiniLua.Proofs.Stack.Runs

/-!
The place of an error. A call from the host that ends well leaves no place noted. One that ends with an
error leaves the place where that error was raised, which the builtins it passed through on its way
out did not change; errors that were raised before and came to nothing have left no trace.
-/

namespace MiniLua

open Effects Machine

/-- A step fails with an error that is not one it was handed. -/
def Mode.Raises (natives : Array Native) (e : RuntimeError) (m : Mode) (s : State) : Prop :=
  (∃ t, step natives m s = .next (.deliver (.error e)) t) ∧ ¬ m.PassesOn natives e s

/-- The error that the run from `m₀` and `s₀` ends with was raised in step `k`, at `m` and `s`. From
then on it was only passed on. -/
structure RaisedAt (natives : Array Native) (m₀ : Mode) (s₀ : State) (e : RuntimeError) (last : Nat)
    (k : Nat) (m : Mode) (s : State) : Prop where
  here : run natives k m₀ s₀ = .running m s
  raises : m.Raises natives e s
  before : k < last
  passed : ∀ i, k < i → i < last → ∃ m' t, run natives i m₀ s₀ = .running m' t ∧
    m'.PassesOn natives e t

/-- The noted place is that of the innermost guest function of `s`, if there is one. -/
def State.TellsOf (t s : State) : Prop :=
  (s.frames = [] → t.location = none) ∧ ∀ f rest, s.frames = f :: rest →
    ∃ p, s.proto? f.closure = some p ∧ t.location = some ⟨p.name, p.lines.getD (f.ip - 1) 0⟩

theorem run_succ_eq_running {natives : Array Native} {k : Nat} {m m' : Mode} {s t : State}
    (h : run natives (k + 1) m s = .running m' t) :
    ∃ m₁ s₁, run natives k m s = .running m₁ s₁ ∧ step natives m₁ s₁ = .next m' t := by
  induction k generalizing m s with
  | zero =>
    refine ⟨m, s, rfl, ?_⟩
    cases hstep : step natives m s with
    | next m₁ s₁ =>
      rw [run_of_next hstep] at h
      cases h
      rfl
    | halt =>
      rw [run, hstep] at h
      cases h
  | succ k ih =>
    cases hstep : step natives m s with
    | next m₁ s₁ =>
      rw [run_of_next hstep] at h
      obtain ⟨m₂, s₂, hrun, hlast⟩ := ih h
      exact ⟨m₂, s₂, (run_of_next hstep k).trans hrun, hlast⟩
    | halt =>
      rw [run, hstep] at h
      cases h

section

variable {natives : Array Native} {o : Options} {limit : Nat} {m : Mode} {s t : State}

theorem Mode.Tended.scene (h : m.Tended natives o limit s) :
    (m.scene s).Tended natives o limit := by
  cases m with
  | enter | deliver => exact h.state
  | execute =>
    have htended := h.state.modest (Abides.keeps (R := State.Modest) (m := instruction) s)
    unfold Mode.scene
    dsimp only
    split
    · next t hrun =>
      rw [hrun] at htended
      exact htended.leave (List.tail_suffix _)
    · exact htended

/-- A place that was taken at a scene tells of it. -/
theorem State.Tended.tellsOf (h : s.Tended natives o limit) (hlocation : t.location = s.place?) :
    t.TellsOf s := by
  refine ⟨fun hframes ↦ ?_, fun f rest hframes ↦ ?_⟩
  · rw [hlocation, place?, hframes]
    rfl
  · obtain ⟨p, hp, hplace⟩ := h.place?_eq hframes
    exact ⟨p, hp, hlocation.trans hplace⟩

variable (hnatives : ∀ b ∈ natives, ∃ c : Builtin, b = c.native) (hlimit : o.maxStack ≤ limit)

include hnatives hlimit

/-- An error on its way was raised somewhere, and the place that is noted, or will be, is from there. -/
theorem raisedAt_of_deliver {m₀ : Mode} {s₀ : State} (h : m₀.Tended natives o limit s₀)
    (hcalm : ∀ e, m₀ ≠ .deliver (.error e)) {last : Nat} {e : RuntimeError}
    (hrun : run natives last m₀ s₀ = .running (.deliver (.error e)) t) :
    ∃ k m s, RaisedAt natives m₀ s₀ e last k m s ∧ (m.scene s).Tended natives o limit ∧
      t.location.or t.place? = (m.scene s).place? := by
  induction last generalizing t with
  | zero =>
    cases hrun
    exact absurd rfl (hcalm e)
  | succ last ih =>
    obtain ⟨m, s, hrun, hstep⟩ := run_succ_eq_running hrun
    have htended := h.run hnatives hlimit hrun
    obtain ⟨result, -, -, hhalt⟩ | ⟨e', hpasses, hfails⟩ | ⟨hpasses, hnext⟩ :=
      htended.step hnatives hlimit
    · cases hstep.symm.trans hhalt
    · rw [hstep] at hfails
      cases hfails with
      | intro _ _ _ noted =>
        obtain ⟨rfl, -⟩ := id hpasses
        obtain ⟨k, m₁, s₁, hraised, hscene, hplace⟩ := ih hrun
        refine ⟨k, m₁, s₁, ⟨hraised.here, hraised.raises, Nat.lt_succ_of_lt hraised.before,
          fun i hk hi ↦ ?_⟩, hscene, noted.trans hplace⟩
        obtain hi | rfl := Nat.lt_or_eq_of_le (Nat.le_of_lt_succ hi)
        · exact hraised.passed i hk hi
        · exact ⟨_, s, hrun, hpasses⟩
    · rw [hstep] at hnext
      cases hnext with
      | next _ _ _ calm _ => exact absurd rfl (calm e)
      | fails h =>
        cases h with
        | intro _ _ _ noted =>
          exact ⟨last, m, s, ⟨hrun, ⟨⟨t, hstep⟩, hpasses e⟩, Nat.lt_succ_self _,
            fun i hlow hhigh ↦ by omega⟩, htended.scene, noted⟩

end

/-- A call from the host with builtins of the library. If it returns, no place is noted. If it ends with
an error, that error was raised in some step, only passed on from then on, and the noted place is that
of the guest function that was innermost when it was raised, with the line of its instruction. -/
theorem place_of_error {natives : Array Native} (hnatives : ∀ b ∈ natives, ∃ c : Builtin, b = c.native)
    {s t : State} (hidle : s.activations = []) {fuel : Nat} {callee : Value} {args : List Value}
    {result : Except RuntimeError (List Value)}
    (hrun : callValue natives fuel callee args s = .halted result t) :
    (∀ values, result = .ok values → t.location = none) ∧
      ∀ e, result = .error e → ∃ last k m u,
        run natives last (.enter callee args) s = .running (.deliver (.error e)) t ∧
        RaisedAt natives (.enter callee args) s e last k m u ∧ t.TellsOf (m.scene u) := by
  have hstart : (Mode.enter callee args).Tended natives s.options
      (max s.stack.size s.options.maxStack) s :=
    .enter hidle (Nat.le_max_left _ _) callee args
  have hlimit := Nat.le_max_right s.stack.size s.options.maxStack
  obtain ⟨last, m, u, -, hlast, hhalt⟩ := run_eq_halted hrun
  have htended := hstart.run hnatives hlimit hlast
  obtain ⟨result', rfl, hcalls, hhalt'⟩ | ⟨e, -, hfails⟩ | ⟨-, hnext⟩ :=
    htended.step hnatives hlimit
  · cases hhalt.symm.trans hhalt'
    refine ⟨?_, ?_⟩
    · rintro values rfl
      obtain hnone | ⟨-, callee', args', h⟩ := htended.unnoted fun _ h ↦ nomatch h
      · exact hnone
      · cases h
    · rintro e rfl
      obtain ⟨k, m, u, hraised, hscene, hplace⟩ :=
        raisedAt_of_deliver hnatives hlimit hstart (fun _ h ↦ nomatch h) hlast
      have hnone : t.place? = none := by simp [State.place?, State.frames, hcalls]
      rw [hnone, Option.or_none] at hplace
      exact ⟨last, k, m, u, hlast, hraised, hscene.tellsOf hplace⟩
  · rw [hhalt] at hfails
    cases hfails
  · rw [hhalt] at hnext
    cases hnext with
    | fails h => cases h

/-- A function that lets `load` ask a reader that fails, and then fails itself. -/
def swallowState : State :=
  let reader : Prototype := ⟨"reader", 0, false, 0,
    #[⟨Opcode.loadTrue.byte, 0, 0, 0⟩, ⟨Opcode.neg.byte, 0, 0, 0⟩], #[], #[], #[], #[7, 8]⟩
  let main : Prototype := ⟨"main", 0, false, 0,
    #[⟨Opcode.loadConst.byte, 0, 0, 0⟩, ⟨Opcode.loadConst.byte, 0, 0, 1⟩, ⟨Opcode.call.byte, 1, 0, 1⟩,
      ⟨Opcode.loadFalse.byte, 0, 0, 0⟩, ⟨Opcode.neg.byte, 0, 0, 0⟩],
    #[.native 0, .closure 0], #[], #[], #[1, 2, 3, 4, 5]⟩
  { State.start {} .empty true with
    heap := ⟨.empty, #[], #[reader, main], #[⟨0, 0, #[]⟩, ⟨1, 0, #[]⟩], #[]⟩ }

/-- Whether a run has ended with an error, and the place that is noted. -/
def Run.report : Run → Bool × Option Location
  | .halted (.error _) s => (true, s.location)
  | .halted (.ok _) s => (false, s.location)
  | .running _ s => (false, s.location)

/-- The place in the reader is noted for a while; the one in the end is that of the error which the call
brings. -/
theorem place_of_error_swallowed : ∃ e t,
    swallowState.activations = [] ∧
    (run #[Library.load] 7 (.enter (.closure 1) []) swallowState).report = (false, some ⟨"reader", 8⟩) ∧
    callValue #[Library.load] 12 (.closure 1) [] swallowState = .halted (.error e) t ∧
    t.location = some ⟨"main", 5⟩ ∧
    ∃ last k m u, run #[Library.load] last (.enter (.closure 1) []) swallowState =
        .running (.deliver (.error e)) t ∧
      RaisedAt #[Library.load] (.enter (.closure 1) []) swallowState e last k m u ∧
      t.TellsOf (m.scene u) := by
  have hnatives : ∀ b ∈ #[Library.load], ∃ c : Builtin, b = c.native := by
    intro b hb
    exact ⟨.load, Array.mem_singleton.mp hb⟩
  have hnoted : (run #[Library.load] 7 (.enter (.closure 1) []) swallowState).report =
      (false, some ⟨"reader", 8⟩) := by decide +kernel
  have hreport : (callValue #[Library.load] 12 (.closure 1) [] swallowState).report =
      (true, some ⟨"main", 5⟩) := by decide +kernel
  have hidle : swallowState.activations = [] := rfl
  generalize hrun : callValue #[Library.load] 12 (.closure 1) [] swallowState = r at hreport
  cases r with
  | running m t => exact absurd (Prod.mk.inj hreport).1 Bool.false_ne_true
  | halted result t =>
    cases result with
    | ok values => exact absurd (Prod.mk.inj hreport).1 Bool.false_ne_true
    | error e =>
      obtain ⟨-, hraised⟩ := place_of_error hnatives hidle hrun
      exact ⟨e, t, hidle, hnoted, rfl, (Prod.mk.inj hreport).2, hraised e rfl⟩

end MiniLua
