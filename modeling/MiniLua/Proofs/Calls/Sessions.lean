import MiniLua.Proofs.Machine.Streams
import MiniLua.Proofs.Stack.Discipline

/-!
Streams over whole runs. Between two steps no stream is open: what was opened was read and closed
within one step, before a call returns and before a loaded chunk runs.
-/

namespace MiniLua

open Effects Machine

namespace Transition

def onState (g : State → State) : Transition → Transition
  | next mode s => .next mode (g s)
  | halt result s => .halt result (g s)

/-- What follows a state has nothing to do with the host. -/
def Aloof (k : State → Transition) : Prop :=
  ∀ (s : State) (H : Host), k { s with host := H } = (k s).onState fun t ↦ { t with host := H }

/-- What follows a state opens, reads and closes streams, whether or not closing one of them fails. -/
structure Tidy (k : State → Transition) : Prop where
  run : ∀ f s, k (s.closing f) = (k s).onState (State.closing f)
  sweeps : ∀ s, State.Sweeps s (k s).state

namespace Aloof

variable {k : State → Transition}

theorem host_state (h : Aloof k) (s : State) : (k s).state.host = s.host := by
  refine (congrArg (fun t ↦ t.state.host) (h s s.host)).trans ?_
  cases k s <;> rfl

theorem tidy (h : Aloof k) : Tidy k where
  run f s := by
    have hhost := h.host_state s
    rw [State.closing, h]
    cases hk : k s with
    | next mode t =>
      rw [hk] at hhost
      rw [onState, onState, State.closing, ← hhost]
      rfl
    | halt result t =>
      rw [hk] at hhost
      rw [onState, onState, State.closing, ← hhost]
      rfl
  sweeps s := by
    rw [State.Sweeps, h.host_state]
    exact Std.Refl.refl _

end Aloof

/-- What follows the ending of a program. -/
def follow {α : Type} (k : α → State → Transition) (l : RuntimeError → State → Transition) :
    EStateM.Result RuntimeError State α → Transition
  | .ok a s => k a s
  | .error e s => l e s

theorem afterNative_follow (m : Machine Outcome) : (fun s ↦ afterNative (m s)) = fun s ↦
    follow (fun outcome t ↦ afterNative (.ok outcome t)) nativeError (m s) := by
  funext s
  cases m s <;> rfl

section

variable {natives : Array Native} {fail : RuntimeError → State → Transition}

theorem enterCallee_closure (c floor argCount : Nat) (expected : Option Nat) :
    enterCallee natives fail (.closure c) floor argCount expected = fun s ↦
      follow (fun _ ↦ .next .execute) fail (enterClosure c floor expected s) := by
  funext s
  unfold enterCallee
  dsimp only
  cases enterClosure c floor expected s <;> rfl

theorem enterCallee_native (n floor argCount : Nat) (expected : Option Nat) :
    enterCallee natives fail (.native n) floor argCount expected = fun s ↦
      follow (fun b t ↦ afterNative (b.start t)) fail
        (enterNative natives n floor argCount expected s) := by
  funext s
  unfold enterCallee
  dsimp only
  cases enterNative natives n floor argCount expected s <;> rfl

theorem returns_enterNative (n floor argCount : Nat) (expected : Option Nat) :
    Effects.Returns (· ∈ natives) (enterNative natives n floor argCount expected) := by
  intro s b t hb
  obtain ⟨e, hentered⟩ | ⟨b', call, t', hentered, hmem, -⟩ :=
    enterNative_cases natives n floor argCount expected s
  · rw [hentered] at hb
    cases hb
  · rw [hentered] at hb
    cases hb
    exact hmem

end

/-- What the host or a builtin is told if a call it made cannot start. -/
def refuse (floor : Nat) (e : RuntimeError) (s : State) : Transition :=
  .next (.deliver (.error e)) (s.truncate floor)

theorem hostCall_follow (natives : Array Native) (callee : Value) (args : List Value) (s : State) :
    hostCall natives callee args s =
      follow (fun _ ↦ enterCallee natives (refuse s.stack.size) callee s.stack.size args.length none)
        (refuse s.stack.size)
        (pushAll (callee :: args) (if s.activations.isEmpty then { s with location := none } else s)) := by
  rw [hostCall_eq]
  dsimp only
  cases pushAll (callee :: args) (if s.activations.isEmpty then { s with location := none } else s) <;> rfl

theorem execute_follow (natives : Array Native) : step natives .execute = fun s ↦
    follow (fun d t ↦ afterInstruction natives (.ok d t)) guestError (instruction s) := by
  funext s
  rw [step_execute]
  cases instruction s <;> rfl

section

variable {α : Type} {m : Machine α} {k : α → State → Transition} {l : RuntimeError → State → Transition}

theorem Aloof.follow [hm : Hostless m] (hk : ∀ a, Aloof (k a)) (hl : ∀ e, Aloof (l e)) :
    Aloof fun s ↦ follow k l (m s) := by
  intro s H
  dsimp only
  rw [hm.run s H]
  cases m s with
  | ok a t => exact hk a t H
  | error e t => exact hl e t H

theorem Tidy.follow [hm : Heedless m] [hs : Abides State.Sweeps m] {P : α → Prop}
    (hreturns : Effects.Returns P m) (hk : ∀ a, P a → Tidy (k a)) (hl : ∀ e, Tidy (l e)) :
    Tidy fun s ↦ follow k l (m s) where
  run f s := by
    rw [hm.run f s]
    cases hr : m s with
    | ok a t => exact (hk a (hreturns s a t hr)).run f t
    | error e t => exact (hl e).run f t
  sweeps s := by
    have hsweeps := hs.keeps s
    cases hr : m s with
    | ok a t =>
      rw [hr] at hsweeps
      exact IsTrans.trans _ _ _ hsweeps ((hk a (hreturns s a t hr)).sweeps t)
    | error e t =>
      rw [hr] at hsweeps
      exact IsTrans.trans _ _ _ hsweeps ((hl e).sweeps t)

/-- What follows may depend on the state, if not on how streams close. -/
theorem Tidy.look {β : Type} {k : β → State → Transition} (g : State → β)
    (hg : ∀ (s : State) (f : Option String → Option String), g (s.closing f) = g s)
    (hk : ∀ b, Tidy (k b)) : Tidy fun s ↦ k (g s) s where
  run f s := by
    rw [hg]
    exact (hk _).run f s
  sweeps s := (hk _).sweeps s

end

theorem aloof_guestError (e : RuntimeError) : Aloof (guestError e) := by
  intro s H
  have hnote : State.noteLocation { s with host := H } = { s.noteLocation with host := H } := by
    unfold State.noteLocation
    have hframes : State.frames { s with host := H } = s.frames := rfl
    have hproto (c : Nat) : State.proto? { s with host := H } c = s.proto? c := rfl
    simp only [hframes, hproto]
    split
    · split <;> rfl
    · rfl
  unfold guestError
  rw [hnote]
  rfl

theorem aloof_giveResults (results : List Value) (expected : Option Nat) :
    Aloof (giveResults results expected) := by
  intro s H
  unfold giveResults
  dsimp only
  split
  · rw [Hostless.run (m := placeResults results expected) s H]
    cases placeResults results expected s with
    | ok _ t => rfl
    | error e t => exact aloof_guestError e t H
  · rfl

theorem aloof_nativeError (e : RuntimeError) : Aloof (nativeError e) := by
  intro s H
  unfold nativeError
  dsimp only
  split
  · split
    · next frame rest _ => exact aloof_guestError e { s with activations := .guest frame :: rest } H
    · rfl
  · rfl

theorem aloof_nativeResults : Aloof nativeResults := by
  intro s H
  unfold nativeResults
  dsimp only
  split
  · next rest _ => exact aloof_giveResults _ _ (({ s with activations := rest } : State).truncate _) H
  · rfl

theorem aloof_guestReturn (results : List Value) : Aloof (guestReturn results) := by
  intro s H
  unfold guestReturn
  dsimp only
  split
  · next rest _ => exact aloof_giveResults _ _ (({ s with activations := rest } : State).truncate _) H
  · rfl

theorem aloof_remember (callee : Value) (args : List Value) (memo : Memo) :
    Aloof fun s ↦ .next (.enter callee args) (remember memo s) := by
  intro s H
  unfold remember
  dsimp only
  split <;> rfl

/-- A builtin that starts or goes on, and what follows. -/
theorem tidy_afterNative (m : Machine Outcome) [Heedless m] [Abides State.Sweeps m] :
    Tidy fun s ↦ afterNative (m s) := by
  have htidy := Tidy.follow (m := m) (k := fun outcome t ↦ afterNative (.ok outcome t)) (P := fun _ ↦ True)
    (fun _ _ _ _ ↦ trivial) (fun outcome _ ↦ by
      cases outcome with
      | finished => exact aloof_nativeResults.tidy
      | invoke callee args memo => exact (aloof_remember callee args memo).tidy)
    fun e ↦ (aloof_nativeError e).tidy
  rw [afterNative_follow]
  exact htidy

variable {natives : Array Native} (hnatives : ∀ n ∈ natives, n.Tidy)

include hnatives

theorem tidy_enterCallee {fail : RuntimeError → State → Transition} (hfail : ∀ e, Aloof (fail e))
    (callee : Value) (floor argCount : Nat) (expected : Option Nat) :
    Tidy (enterCallee natives fail callee floor argCount expected) := by
  cases callee with
  | closure c =>
    rw [enterCallee_closure]
    exact (Aloof.follow (fun _ _ _ ↦ rfl) hfail).tidy
  | native n =>
    rw [enterCallee_native]
    refine Tidy.follow (returns_enterNative n floor argCount expected) (fun b hb ↦ ?_)
      fun e ↦ (hfail e).tidy
    have hstart := (hnatives b hb).start
    have hstarts := (hnatives b hb).starts
    exact tidy_afterNative b.start
  | _ => exact (hfail _).tidy

theorem tidy_guestCall (argCount : Nat) (expected : Option Nat) :
    Tidy (guestCall natives argCount expected) := by
  let k (stack : Array Value) : State → Transition :=
    if stack.size < argCount + 1 then guestError .operand
    else
      enterCallee natives guestError (stack.getD (stack.size - (argCount + 1)) .nil)
        (stack.size - (argCount + 1)) argCount expected
  have hk (stack : Array Value) : Tidy (k stack) := by
    dsimp only [k]
    split
    · exact (aloof_guestError _).tidy
    · exact tidy_enterCallee hnatives aloof_guestError _ _ _ _
  have heq : guestCall natives argCount expected = fun s ↦ k s.stack s := by
    funext s
    rw [guestCall_eq]
    dsimp only [k]
    split <;> rfl
  rw [heq]
  exact .look State.stack (fun _ _ ↦ rfl) hk

theorem tidy_hostCall (callee : Value) (args : List Value) : Tidy (hostCall natives callee args) := by
  have hrefuse (floor : Nat) (e : RuntimeError) : Aloof (refuse floor e) := fun _ _ ↦ rfl
  have hpushed (floor : Nat) := Tidy.follow (m := pushAll (callee :: args)) (P := fun _ ↦ True)
    (fun _ _ _ _ ↦ trivial)
    (fun _ _ ↦ tidy_enterCallee hnatives (hrefuse floor) callee floor args.length none)
    fun e ↦ (hrefuse floor e).tidy
  let reset (s : State) : State := if s.activations.isEmpty then { s with location := none } else s
  have hreset (f : Option String → Option String) (s : State) :
      reset (s.closing f) = (reset s).closing f := by
    dsimp only [reset, State.closing]
    split <;> rfl
  have hhost (s : State) : (reset s).host = s.host := by
    dsimp only [reset]
    split <;> rfl
  have heq (s : State) := hostCall_follow natives callee args s
  constructor
  · intro f s
    have hrun := (hpushed s.stack.size).run f (reset s)
    rw [← hreset] at hrun
    rw [heq, heq]
    exact hrun
  · intro s
    have hsweeps := (hpushed s.stack.size).sweeps (reset s)
    rw [State.Sweeps, hhost] at hsweeps
    rw [heq]
    exact hsweeps

theorem tidy_handOver (result : Except RuntimeError (List Value)) : Tidy (handOver natives result) := by
  have hresume {call : NativeCall} {b : Native} (hb : natives[call.native]? = some b) :
      Tidy fun s ↦ afterNative (b.resume call.memo result s) := by
    have hresume := (hnatives b (Array.mem_of_getElem? hb)).resume
    have hresumes := (hnatives b (Array.mem_of_getElem? hb)).resumes
    exact tidy_afterNative (b.resume call.memo result)
  constructor
  · intro f s
    have hcalls : (s.closing f).activations = s.activations := rfl
    unfold handOver
    rw [hcalls]
    split
    · split
      · next hb => exact (hresume hb).run f s
      · exact (aloof_nativeError _).tidy.run f s
    · rfl
  · intro s
    unfold handOver
    split
    · split
      · next hb => exact (hresume hb).sweeps s
      · exact (aloof_nativeError _).tidy.sweeps s
    · exact Std.Refl.refl s

/-- Within one step every stream that is opened is read and closed. -/
theorem tidy_step (mode : Mode) : Tidy (step natives mode) := by
  cases mode with
  | execute =>
    rw [execute_follow]
    refine Tidy.follow (P := fun _ ↦ True) (fun _ _ _ _ ↦ trivial) (fun d _ ↦ ?_)
      fun e ↦ (aloof_guestError e).tidy
    cases d with
    | nothing => exact Aloof.tidy fun _ _ ↦ rfl
    | call argCount expected => exact tidy_guestCall hnatives argCount expected
    | ret results => exact (aloof_guestReturn results).tidy
  | enter callee args => exact tidy_hostCall hnatives callee args
  | deliver result => exact tidy_handOver hnatives result

end Transition

def Run.state : Run → State
  | .halted _ s => s
  | .running _ s => s

def Run.onState (g : State → State) : Run → Run
  | .halted result s => .halted result (g s)
  | .running mode s => .running mode (g s)

/-- What every step abides by a run abides by. -/
theorem run_abides {natives : Array Native} {R : State → State → Prop} [Std.Refl R] [IsTrans State R]
    (hstep : ∀ mode s, R s (step natives mode s).state) (fuel : Nat) (mode : Mode) (s : State) :
    R s (run natives fuel mode s).state := by
  induction fuel generalizing mode s with
  | zero => exact Std.Refl.refl s
  | succ fuel ih =>
    have hs := hstep mode s
    unfold run
    cases hnext : step natives mode s with
    | next mode t =>
      rw [hnext] at hs
      exact IsTrans.trans _ _ _ hs (ih mode t)
    | halt result t =>
      rw [hnext] at hs
      exact hs

section

variable {natives : Array Native} (hnatives : ∀ n ∈ natives, n.Tidy)

include hnatives

theorem run_closing (f : Option String → Option String) (fuel : Nat) (mode : Mode) (s : State) :
    run natives fuel mode (s.closing f) = (run natives fuel mode s).onState (State.closing f) := by
  induction fuel generalizing mode s with
  | zero => rfl
  | succ fuel ih =>
    have hstep := (Transition.tidy_step hnatives mode).run f s
    unfold run
    rw [hstep]
    cases step natives mode s with
    | next mode t => exact ih mode t
    | halt result t => rfl

theorem sweeps_run (fuel : Nat) (mode : Mode) (s : State) : s.Sweeps (run natives fuel mode s).state :=
  run_abides (fun mode s ↦ (Transition.tidy_step hnatives mode).sweeps s) fuel mode s

namespace Loading

theorem loadFrom_closing (f : Option String → Option String) (fuel : Nat) (reader : Value)
    (chunkName : String) (rounds : Nat) (text : Bytes) (s : State) :
    loadFrom natives fuel reader chunkName rounds text (s.closing f) =
      (loadFrom natives fuel reader chunkName rounds text s).map (Prod.map id (State.closing f)) := by
  induction rounds generalizing text s with
  | zero => rfl
  | succ rounds ih =>
    unfold loadFrom callValue
    rw [run_closing hnatives f]
    cases run natives fuel (.enter reader []) s with
    | running mode t => rfl
    | halted result t =>
      cases result with
      | error e => rfl
      | ok results =>
        have hpiece : piece? (t.closing f).heap results = piece? t.heap results := rfl
        dsimp only [Run.onState]
        rw [hpiece]
        cases piece? t.heap results with
        | some piece => exact ih (text ++ piece) t
        | none =>
          dsimp only
          rw [Heedless.run (m := loadBytes text chunkName) f t]
          cases loadBytes text chunkName t <;> rfl

/-- A reader may load chunks of its own. -/
theorem sweeps_loadFrom {fuel : Nat} {reader : Value} {chunkName : String} {rounds : Nat} {text : Bytes}
    {s t : State} {loaded : Except LoadError Value}
    (h : loadFrom natives fuel reader chunkName rounds text s = some (loaded, t)) : s.Sweeps t := by
  induction rounds generalizing text s with
  | zero => cases h
  | succ rounds ih =>
    have hread := sweeps_run hnatives fuel (.enter reader []) s
    unfold loadFrom callValue at h
    cases hrun : run natives fuel (.enter reader []) s with
    | running mode u =>
      rw [hrun] at h
      cases h
    | halted result u =>
      rw [hrun] at h hread
      cases result with
      | error e =>
        cases h
        exact hread
      | ok results =>
        dsimp only at h
        cases hpiece : piece? u.heap results with
        | some piece =>
          rw [hpiece] at h
          exact IsTrans.trans _ _ _ hread (ih h)
        | none =>
          rw [hpiece] at h
          have hload := Abides.keeps (R := State.Sweeps) (m := loadBytes text chunkName) u
          dsimp only at h
          cases hr : loadBytes text chunkName u with
          | ok v w =>
            rw [hr] at h hload
            cases h
            exact IsTrans.trans _ _ _ hread hload
          | error e w =>
            rw [hr] at h hload
            cases h
            exact IsTrans.trans _ _ _ hread hload

end Loading

end

theorem tidy_of_builtins (builtins : Array Builtin) : ∀ n ∈ builtins.map Builtin.native, n.Tidy := by
  intro n hn
  obtain ⟨b, -, rfl⟩ := Array.mem_map.mp hn
  exact b.tidy

/-- From the first state to the second, streams from these sources were opened, read and closed, one
after the other. -/
def State.Handles (s t : State) (sources : List Source) : Prop :=
  t.host.events.reverse = s.host.events.reverse ++ sources.flatMap Source.session

/-- The stream that a file of this name is loaded from; without a name, standard input. -/
def Host.opens (h : Host) : Option String → List Source
  | none => [.input]
  | some name =>
    match h.resource name with
    | .ok stream => [stream.source]
    | .error _ => []

theorem count_sessions (sources : List Source) (x : Source) :
    (sources.flatMap Source.session).count (.closed x) =
      if x = .input then 0 else (sources.flatMap Source.session).count (.opened x) := by
  induction sources with
  | nil => split <;> rfl
  | cons source rest ih =>
    obtain ⟨hopened, -, hclosed⟩ := source.count_session x
    rw [List.flatMap_cons, List.count_append, List.count_append, ih, hopened, hclosed]
    split <;> rfl

namespace Loading

theorem handles_loadFile {s : State} (hinput : s.host.stdin.source = .input) (name : Option String) :
    s.Handles (final (loadFile name s)) (s.host.opens name) := by
  unfold State.Handles Host.opens
  cases name with
  | none =>
    have hevents := s.host.events_served s.host.stdin
    rw [Host.served, hinput] at hevents
    rw [host_loadFile_input, hevents, List.flatMap_singleton]
  | some name =>
    rw [host_loadFile]
    dsimp only
    cases s.host.resource name with
    | ok stream =>
      dsimp only
      rw [Host.events_served, List.flatMap_singleton]
    | error e => simp

end Loading

theorem State.Sweeps.handles {s t : State} (h : s.Sweeps t) (hinput : s.host.stdin.source = .input) :
    ∃ sources, s.Handles t sources := (h hinput).2

open Loading in
/-- Streams are closed exactly once. A stream that is loaded from is read and then closed, unless it is
standard input, whether it can be read, and whatever its content is. Loaders open streams, read them
and close them before they end; so does every builtin before it ends or makes a call, a loaded chunk
among them, and at no point of a run is a stream open. What is closed was opened, as many times. All
of them do the same if the closing of streams has other outcomes. -/
theorem streams_closed_once {s : State} (hinput : s.host.stdin.source = .input)
    (builtins : Array Builtin) :
    (∀ stream chunkName, (final (loadStream stream chunkName s)).host.events.reverse =
        s.host.events.reverse ++
          .read stream.source :: if stream.source = .input then [] else [.closed stream.source]) ∧
      (∀ bytes chunkName, s.Handles (final (loadBytes bytes chunkName s)) [.memory]) ∧
      (∀ name, s.Handles (final (loadFile name s)) (s.host.opens name)) ∧
      (∀ fuel reader chunkName rounds text loaded t,
        loadFrom (builtins.map Builtin.native) fuel reader chunkName rounds text s = some (loaded, t) →
          ∃ sources, s.Handles t sources) ∧
      (∀ b : Builtin, (∃ sources, s.Handles (final (b.native.start s)) sources) ∧
        ∀ memo result, ∃ sources, s.Handles (final (b.native.resume memo result s)) sources) ∧
      (∀ fuel mode, ∃ sources, s.Handles (run (builtins.map Builtin.native) fuel mode s).state sources) ∧
      (∀ (sources : List Source) x, (sources.flatMap Source.session).count (.closed x) =
        if x = .input then 0 else (sources.flatMap Source.session).count (.opened x)) ∧
      ∀ f, (∀ stream chunkName e, loadStream { stream with closeError := e } chunkName (s.closing f) =
          withClosing f (loadStream stream chunkName s)) ∧
        (∀ bytes chunkName, loadBytes bytes chunkName (s.closing f) =
          withClosing f (loadBytes bytes chunkName s)) ∧
        (∀ name, loadFile name (s.closing f) = withClosing f (loadFile name s)) ∧
        (∀ fuel reader chunkName rounds text,
          loadFrom (builtins.map Builtin.native) fuel reader chunkName rounds text (s.closing f) =
            (loadFrom (builtins.map Builtin.native) fuel reader chunkName rounds text s).map
              (Prod.map id (State.closing f))) ∧
        (∀ b : Builtin, b.native.start (s.closing f) = withClosing f (b.native.start s) ∧
          ∀ memo result, b.native.resume memo result (s.closing f) =
            withClosing f (b.native.resume memo result s)) ∧
        ∀ fuel mode, run (builtins.map Builtin.native) fuel mode (s.closing f) =
          (run (builtins.map Builtin.native) fuel mode s).onState (State.closing f) := by
  have htidy := tidy_of_builtins builtins
  refine ⟨fun stream chunkName ↦ ?_, fun bytes chunkName ↦ ?_, handles_loadFile hinput,
    fun fuel reader chunkName rounds text loaded t h ↦ (sweeps_loadFrom htidy h).handles hinput,
    fun b ↦ ⟨?_, fun memo result ↦ ?_⟩, fun fuel mode ↦ (sweeps_run htidy fuel mode s).handles hinput,
    count_sessions, fun f ↦ ⟨fun stream chunkName e ↦ ?_, fun bytes chunkName ↦ ?_, fun name ↦ ?_,
      fun fuel reader chunkName rounds text ↦ ?_, fun b ↦ ⟨?_, fun memo result ↦ ?_⟩,
      fun fuel mode ↦ ?_⟩⟩
  · rw [host_loadStream, Host.events_swept]
  · rw [State.Handles, host_loadBytes, Host.events_served, List.flatMap_singleton]
  · exact (b.tidy.starts.keeps s).handles hinput
  · exact ((b.tidy.resumes memo result).keeps s).handles hinput
  · exact loadStream_closing stream chunkName f e s
  · exact Heedless.run f s
  · exact Heedless.run f s
  · exact loadFrom_closing htidy f fuel reader chunkName rounds text s
  · exact b.tidy.start.run f s
  · exact (b.tidy.resume memo result).run f s
  · exact run_closing htidy f fuel mode s

/-- A host with one file, which cannot be read to its end and not be closed. -/
def Host.unreliable : Host :=
  { Host.empty with
    resource := fun name ↦
      if name = "a.lua" then .ok ⟨.resource name, [114], some "read", some "close"⟩ else .error .notFound }

theorem streams_closed_once_unreliable :
    (State.start {} .unreliable true).host.stdin.source = .input ∧
      (final (Loading.loadFile (some "a.lua") (State.start {} .unreliable true))).host.events.reverse =
        [.opened (.resource "a.lua"), .read (.resource "a.lua"), .closed (.resource "a.lua")] :=
  ⟨rfl, (streams_closed_once (s := State.start {} .unreliable true) rfl #[]).2.2.1 (some "a.lua")⟩

end MiniLua
