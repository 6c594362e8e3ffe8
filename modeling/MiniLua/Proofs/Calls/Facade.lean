import MiniLua.Proofs.Calls.Transparent
import MiniLua.Proofs.Memory.Extremes
import MiniLua.Proofs.Stack.Blind

/-!
Builtins that see the stack through their window only. What one does between two calls is a stretch: it
counts and reads arguments, puts results in their place, adds results, and besides does what has nothing
to do with the stack. All builtins of the library are made of stretches.
-/

namespace MiniLua

open Effects Machine

/-- A program to which the stack does not matter, and that leaves the activations as they are. -/
class Aside {α : Type} (m : Machine α) : Prop where
  stackless : Stackless m
  quiet : Quiet m

inductive Stretch (α : Type) : Type 1
  | done (a : α)
  | count (next : Nat → Stretch α)
  | read (i : Nat) (next : Value → Stretch α)
  | set (values : List Value) (next : Stretch α)
  | push (value : Value) (next : Stretch α)
  | aside {β : Type} (m : Machine β) (h : Aside m) (next : β → Stretch α)

/-- What a stretch does to its window, with what it was told there. -/
inductive Act
  | count (n : Nat)
  | read (i : Nat) (v : Value)
  | set (values : List Value)
  | push (value : Value)

namespace Stretch

variable {α β : Type}

def run : Stretch α → Machine α
  | done a => pure a
  | count next => do (next (← argCount)).run
  | read i next => do (next (← arg i)).run
  | set values next => do setResults values; next.run
  | push value next => do addResult value; next.run
  | aside m _ next => do (next (← m)).run

/-- The acts of a run that starts in a state, the first one first. -/
def acts : Stretch α → State → List Act
  | done _, _ => []
  | count next, s =>
    match argCount s with
    | .ok n t => .count n :: (next n).acts t
    | .error _ _ => []
  | read i next, s =>
    match arg i s with
    | .ok v t => .read i v :: (next v).acts t
    | .error _ _ => []
  | set values next, s => .set values :: next.acts (final (setResults values s))
  | push value next, s => .push value :: next.acts (final (addResult value s))
  | aside m _ next, s =>
    match m s with
    | .ok b t => (next b).acts t
    | .error _ _ => []

protected def bind (p : Stretch α) (f : α → Stretch β) : Stretch β :=
  match p with
  | done a => f a
  | count next => count fun n ↦ (next n).bind f
  | read i next => read i fun v ↦ (next v).bind f
  | set values next => set values (next.bind f)
  | push value next => push value (next.bind f)
  | aside m h next => aside m h fun b ↦ (next b).bind f

theorem run_bind (p : Stretch α) (f : α → Stretch β) :
    (p.bind f).run = (do (f (← p.run)).run : Machine β) := by
  induction p with
  | done a => rw [Stretch.bind, run, pure_bind]
  | count next ih | read i next ih => simp only [Stretch.bind, run, bind_assoc, ih]
  | set values next ih | push value next ih => simp only [Stretch.bind, run, bind_assoc, ih]
  | aside m h next ih => simp only [Stretch.bind, run, bind_assoc, ih]

end Stretch

/-! ### Windows -/

/-- The builtin `call` runs on top of `rest`, with `window` on the stack above `low`. -/
structure State.Serving (call : NativeCall) (rest : List Activation) (low : Array Value)
    (window : List Value) (s : State) : Prop where
  calls : s.activations = .native call :: rest
  base : call.base = low.size
  stack : s.stack = low ++ window

/-- What is in a window after an act. -/
def Act.on (window : List Value) : Act → List Value
  | count _ | read _ _ => window
  | set values => values
  | push value => window ++ [value]

/-- A stretch called with `n` arguments is told the truth about its window. -/
inductive Act.Faithful (n : Nat) : List Value → List Act → Prop
  | nil (window : List Value) : Faithful n window []
  | count {window : List Value} {acts : List Act} (rest : Faithful n window acts) :
      Faithful n window (.count n :: acts)
  | read {window : List Value} {acts : List Act} (i : Nat) (rest : Faithful n window acts) :
      Faithful n window (.read i (if i < n then window.getD i .nil else .nil) :: acts)
  | set {window values : List Value} {acts : List Act} (rest : Faithful n values acts) :
      Faithful n window (.set values :: acts)
  | push {window : List Value} {value : Value} {acts : List Act}
      (rest : Faithful n (window ++ [value]) acts) : Faithful n window (.push value :: acts)

theorem Act.Faithful.append {n : Nat} {window : List Value} {acts later : List Act}
    (h : Faithful n window acts) (h' : Faithful n (acts.foldl Act.on window) later) :
    Faithful n window (acts ++ later) := by
  induction h with
  | nil => exact h'
  | count _ ih => exact .count (ih h')
  | read i _ ih => exact .read i (ih h')
  | set _ ih => exact .set (ih h')
  | push _ ih => exact .push (ih h')

section

variable {α : Type} {call : NativeCall} {rest : List Activation} {low : Array Value} {window : List Value}
  {s : State}

theorem State.Serving.native? (h : s.Serving call rest low window) : s.native? = some call := by
  simp [State.native?, h.calls]

theorem Machine.argCount_serving (h : s.Serving call rest low window) : argCount s = .ok call.argCount s := by
  have hcount : argCount s = .ok ((s.native?.map NativeCall.argCount).getD 0) s := rfl
  rw [hcount, h.native?]
  rfl

theorem Machine.arg_serving (h : s.Serving call rest low window) (i : Nat) :
    arg i s = .ok (if i < call.argCount then window.getD i .nil else .nil) s := by
  have hread : s.stack.getD (call.base + i) .nil = window.getD i .nil := by
    rw [h.stack, h.base, Array.getD_eq_getD_getElem?, ← Array.getElem?_toList, Array.toList_appendList,
      List.getElem?_append_right (by rw [Array.length_toList]; omega), Array.length_toList,
      Nat.add_sub_cancel_left, List.getD_eq_getElem?_getD]
  rw [arg_apply h.native?, hread]

theorem Machine.arg_of_count (h : s.Serving call rest low window) (hcount : call.argCount = window.length)
    (i : Nat) : arg i s = .ok (window.getD i .nil) s := by
  rw [arg_serving h, hcount]
  split
  · rfl
  · next hi => rw [List.getD_eq_default _ _ (Nat.le_of_not_lt hi)]

theorem Machine.exists_arg (i : Nat) (s : State) : ∃ v, arg i s = .ok v s := by
  unfold arg
  rw [bind_apply, get_apply]
  dsimp only
  cases s.native? <;> exact ⟨_, rfl⟩

theorem Machine.wrongType_fails (i : Nat) (wanted : String) (s : State) :
    ∃ e, (wrongType i wanted : Machine α) s = .error e s := by
  have hcount : argCount s = .ok ((s.native?.map NativeCall.argCount).getD 0) s := rfl
  unfold wrongType
  rw [bind_of_ok hcount]
  dsimp only
  split
  · obtain ⟨v, hv⟩ := exists_arg i s
    rw [bind_apply, map_apply, hv]
    exact ⟨_, rfl⟩
  · exact ⟨_, rfl⟩

theorem Machine.argNumber?_of_arg {i : Nat} {v : Value} (harg : arg i s = .ok v s) :
    argNumber? i s = .ok (s.heap.number? v) s := by
  rw [argNumber?, bind_apply, get_apply]
  dsimp only
  rw [bind_of_ok harg]
  rfl

/-- A number, or a string that writes one, is read as an integer. -/
theorem Machine.argInt_of_view {i : Nat} {v : Value} {n : Int64} (harg : arg i s = .ok v s)
    (hview : (s.heap.number? v).bind Value.int? = some n) : argInt i s = .ok n s := by
  rw [argInt, bind_of_ok (argNumber?_of_arg harg), hview]
  rfl

theorem Machine.argInt_fails {i : Nat} {v : Value} (harg : arg i s = .ok v s)
    (hview : (s.heap.number? v).bind Value.int? = none) : ∃ e, argInt i s = .error e s := by
  rw [argInt, bind_of_ok (argNumber?_of_arg harg), hview]
  exact wrongType_fails i "number" s

theorem Machine.setResults_apply (h : s.Serving call rest low window) (values : List Value) :
    setResults values s = .ok () { s with stack := low ++ values } := by
  have hshrink : s.stack.shrink call.base = low := by rw [h.stack, h.base, shrink_appendList]
  rw [setResults, modify_apply, h.native?]
  exact congrArg (fun stack : Array Value ↦ EStateM.Result.ok () { s with stack := stack ++ values }) hshrink

theorem Machine.setResults_serving (h : s.Serving call rest low window) (values : List Value) :
    ∃ t, setResults values s = .ok () t ∧ t.Serving call rest low values :=
  ⟨{ s with stack := low ++ values }, setResults_apply h values, h.calls, h.base, rfl⟩

theorem Machine.addResult_serving (h : s.Serving call rest low window) (value : Value) :
    ∃ t, addResult value s = .ok () t ∧ t.Serving call rest low (window ++ [value]) := by
  refine ⟨{ s with stack := s.stack.push value }, ?_, h.calls, h.base, ?_⟩
  · rw [addResult, modify_apply, h.native?]
    rfl
  · dsimp only
    rw [h.stack]
    apply Array.ext'
    simp

theorem Aside.serving {m : Machine α} (hm : Aside m) (h : s.Serving call rest low window) :
    (final (m s)).Serving call rest low window := by
  have hsame := hm.quiet s
  exact ⟨hsame.activations.trans h.calls, h.base, hsame.stack.trans h.stack⟩

/-- What a stretch leaves in the window are the values it put there. -/
theorem Stretch.serving (p : Stretch α) (h : s.Serving call rest low window) :
    (final (p.run s)).Serving call rest low ((p.acts s).foldl Act.on window) ∧
      Act.Faithful call.argCount window (p.acts s) := by
  induction p generalizing s window with
  | done a => exact ⟨h, .nil window⟩
  | count next ih =>
    have hcount := argCount_serving h
    rw [run, acts, bind_of_ok hcount, hcount]
    obtain ⟨hserving, hfaithful⟩ := ih call.argCount h
    exact ⟨hserving, .count hfaithful⟩
  | read i next ih =>
    have harg := arg_serving h i
    rw [run, acts, bind_of_ok harg, harg]
    obtain ⟨hserving, hfaithful⟩ := ih _ h
    exact ⟨hserving, .read i hfaithful⟩
  | set values next ih =>
    obtain ⟨t, ht, hset⟩ := setResults_serving h values
    rw [run, acts, bind_of_ok ht, ht]
    obtain ⟨hserving, hfaithful⟩ := ih hset
    exact ⟨hserving, .set hfaithful⟩
  | push value next ih =>
    obtain ⟨t, ht, hpush⟩ := addResult_serving h value
    rw [run, acts, bind_of_ok ht, ht]
    obtain ⟨hserving, hfaithful⟩ := ih hpush
    exact ⟨hserving, .push hfaithful⟩
  | aside m hm next ih =>
    have haside := hm.serving h
    rw [run, acts, bind_apply]
    cases hrun : m s with
    | ok b t =>
      rw [hrun] at haside
      exact ih b haside
    | error e t =>
      rw [hrun] at haside
      exact ⟨haside, .nil window⟩

end

/-- A stretch keeps to its window also where the stack does not reach up to it. -/
theorem Stretch.contained {α : Type} (p : Stretch α) : MiniLua.Contained p.run := by
  induction p with
  | done a => exact .pure a
  | count next ih => exact .quiet_bind quiet_argCount ih
  | read i next ih => exact .quiet_bind (quiet_arg i) ih
  | set values next ih => exact (Library.contained_setResults values).bind fun _ ↦ ih
  | push value next ih =>
    have hpush : MiniLua.Contained (addResult value) := by
      refine .modify fun s call rest hs ↦ ?_
      have hnative : s.native? = some call := by simp [State.native?, hs]
      rw [hnative]
      exact ⟨rfl, .push (Nat.min_le_right _ _) value⟩
    exact hpush.bind fun _ ↦ ih
  | aside m h next ih => exact .quiet_bind h.quiet ih

/-- A builtin made of stretches: one for its start and one for each outcome of a call it made. -/
structure Facade (b : Native) : Type 1 where
  first : Stretch Outcome
  next : Memo → Except RuntimeError (List Value) → Stretch Outcome
  start : b.start = first.run
  resume : ∀ memo result, b.resume memo result = (next memo result).run

theorem Facade.contained {b : Native} (f : Facade b) : b.Contained where
  start := f.start ▸ f.first.contained
  resume memo result := f.resume memo result ▸ (f.next memo result).contained

/-! ### Programs that are stretches -/

class OnWindow {α : Type} (m : Machine α) : Prop where
  stretch : ∃ p : Stretch α, p.run = m

namespace OnWindow

variable {α β γ : Type} {m : Machine α}

instance pure (a : α) : OnWindow (Pure.pure a : Machine α) := ⟨.done a, rfl⟩

instance aside [h : Aside m] : OnWindow m := by
  refine ⟨.aside m h .done, ?_⟩
  simp only [Stretch.run]
  exact bind_pure m

instance bind {f : α → Machine β} [hm : OnWindow m] [hf : ∀ a, OnWindow (f a)] : OnWindow (m >>= f) := by
  obtain ⟨p, rfl⟩ := hm.stretch
  choose q hq using fun a ↦ (hf a).stretch
  refine ⟨p.bind q, ?_⟩
  simp only [Stretch.run_bind, hq]

instance map {f : α → β} [OnWindow m] : OnWindow (f <$> m) := by
  rw [← bind_pure_comp]
  infer_instance

instance ite {c : Prop} [Decidable c] {n : Machine α} [OnWindow m] [OnWindow n] :
    OnWindow (if c then m else n) := by
  split <;> assumption

instance mapM {f : γ → Machine α} [∀ c, OnWindow (f c)] (cs : List γ) : OnWindow (cs.mapM f) := by
  induction cs with
  | nil => exact pure _
  | cons c cs ih =>
    rw [List.mapM_cons]
    infer_instance

theorem after {f : α → Machine β} [OnWindow m] (h : ∀ a, OnWindow (f a)) : OnWindow (m >>= f) := inferInstance

/-- The state, but for its stack. -/
def view : Machine State := fun s ↦ .ok { s with stack := #[] } s

instance aside_view : Aside view where
  stackless s := .inl ⟨{ s with stack := #[] }, s, fun _ ↦ rfl⟩
  quiet _ := ⟨rfl, rfl⟩

theorem look {f : State → Machine β} (h : ∀ (s : State) (S : Array Value), f { s with stack := S } = f s)
    (hf : ∀ s, OnWindow (f s)) : OnWindow (get >>= f) := by
  have hview : (get >>= f) = view >>= f := by
    funext s
    exact congrFun (h s #[]).symm s
  rw [hview]
  infer_instance

end OnWindow

namespace Machine

variable {α : Type}

instance (r : Except RuntimeError α) : Aside (lift r) := ⟨.lift r, quiet_lift r⟩

instance (bytes : Bytes) : Aside (bytesValue bytes) := ⟨.bytesValue bytes, quiet_bytesValue bytes⟩

instance (text : String) : Aside (textValue text) := inferInstanceAs (Aside (bytesValue _))

instance (f : Heap → Heap) : Aside (changeHeap f) := ⟨.changeHeap f, quiet_changeHeap f⟩

instance (e : RuntimeError) : Aside (throw e : Machine α) := ⟨.throw e, .throw e⟩

instance (fault : TypeFault) : Aside (typeError fault : Machine α) := inferInstanceAs (Aside (throw _))

instance : OnWindow argCount := ⟨.count .done, bind_pure argCount⟩

instance (i : Nat) : OnWindow (arg i) := ⟨.read i .done, bind_pure (arg i)⟩

instance (values : List Value) : OnWindow (setResults values) :=
  ⟨.set values (.done ()), bind_pure (setResults values)⟩

instance (value : Value) : OnWindow (addResult value) := ⟨.push value (.done ()), bind_pure (addResult value)⟩

instance : OnWindow args := by
  unfold args
  infer_instance

instance : OnWindow expectedResults := .look (fun _ _ ↦ rfl) fun _ ↦ inferInstance

instance (depth : Nat) : OnWindow (callFrame? depth) := by
  unfold callFrame?
  split
  · infer_instance
  · exact .look (fun _ _ ↦ rfl) fun _ ↦ inferInstance

instance (i : Nat) (detail : String) : OnWindow (badArgument i detail) :=
  .look (fun _ _ ↦ rfl) fun _ ↦ inferInstance

instance (i : Nat) (wanted : String) : OnWindow (wrongType i wanted : Machine α) := by
  unfold wrongType
  infer_instance

instance (i : Nat) : OnWindow (argNumber? i) := .look (fun _ _ ↦ rfl) fun _ ↦ inferInstance

instance (i : Nat) : OnWindow (argInt i) := by
  refine .after fun v ↦ ?_
  split <;> infer_instance

instance (i : Nat) : OnWindow (argFloat i) := by
  refine .after fun v ↦ ?_
  split <;> infer_instance

instance (i : Nat) : OnWindow (argBytes i) := by
  refine .after fun v ↦ ?_
  split
  · exact .look (fun _ _ ↦ rfl) fun _ ↦ inferInstance
  · split <;> infer_instance

instance (i : Nat) : OnWindow (argBool i) := by
  unfold argBool
  infer_instance

instance (value : Value) : OnWindow (raise value) := .look (fun _ _ ↦ rfl) fun _ ↦ inferInstance

end Machine

/-! ### Loading -/

namespace Loading

/-- A loader to which the stack does not matter, and that leaves it as it is. -/
class Detached {α : Type} (loader : Loader α) : Prop where
  run : ∀ (s : State) (S : Array Value), loader { s with stack := S } = match loader s with
    | .ok a t => .ok a { t with stack := S }
    | .error e t => .error e { t with stack := S }

instance {α β : Type} {m : Loader α} {f : α → Loader β} [hm : Detached m] [hf : ∀ a, Detached (f a)] :
    Detached (m >>= f) := by
  refine ⟨fun s S ↦ ?_⟩
  rw [bind_apply, bind_apply, hm.run s S]
  cases m s with
  | ok a t => exact (hf a).run t S
  | error e t => rfl

instance {α : Type} (a : α) : Detached (pure a : Loader α) := ⟨fun _ _ ↦ rfl⟩

instance {α : Type} (e : LoadError) : Detached (throw e : Loader α) := ⟨fun _ _ ↦ rfl⟩

instance (event : StreamEvent) : Detached (note event) := ⟨fun _ _ ↦ rfl⟩

instance (proto : Nat) : Detached (closureOf proto) := ⟨fun _ _ ↦ rfl⟩

instance (bytes : Bytes) (chunkName : String) : Detached (decode bytes chunkName) := by
  refine ⟨fun s S ↦ ?_⟩
  unfold decode
  dsimp only
  split
  · split <;> rfl
  · split
    · split <;> rfl
    · rfl

instance (stream : Stream) (chunkName : String) : Detached (drain stream chunkName) := by
  refine ⟨fun s S ↦ ?_⟩
  unfold drain
  dsimp only
  split <;> rfl

instance (stream : Stream) (chunkName : String) : Detached (loadStream stream chunkName) := by
  have hdecode : Detached (do decode (← drain stream chunkName) chunkName : Loader Nat) := inferInstance
  refine ⟨fun s S ↦ ?_⟩
  unfold loadStream
  rw [hdecode.run s S]
  cases (do decode (← drain stream chunkName) chunkName : Loader Nat) s with
  | ok main t => rfl
  | error e t => rfl

instance (bytes : Bytes) (chunkName : String) : Detached (loadBytes bytes chunkName) := by
  unfold loadBytes
  infer_instance

instance (name : Option String) : Detached (loadFile name) := by
  have hopen : Detached (openStream name) := by
    refine ⟨fun s S ↦ ?_⟩
    unfold openStream
    rw [bind_apply, bind_apply, get_apply, get_apply]
    cases name with
    | none => rfl
    | some name =>
      dsimp only
      cases s.host.resource name with
      | ok stream => rfl
      | error e => cases e <;> rfl
  unfold loadFile
  infer_instance

theorem aside_attempt {α : Type} {loader : Loader α} [h : Detached loader] (hquiet : Quiet loader) :
    Aside (attempt loader) := by
  refine ⟨fun s ↦ .inl ?_, quiet_attempt hquiet⟩
  cases hs : loader s with
  | ok a t =>
    refine ⟨.ok a, t, fun S ↦ ?_⟩
    rw [attempt, h.run s S, hs]
  | error e t =>
    refine ⟨.error e, t, fun S ↦ ?_⟩
    rw [attempt, h.run s S, hs]

instance (bytes : Bytes) (chunkName : String) : Aside (attempt (loadBytes bytes chunkName)) :=
  aside_attempt (quiet_loadBytes bytes chunkName)

instance (name : Option String) : Aside (attempt (loadFile name)) := aside_attempt (quiet_loadFile name)

end Loading

/-! ### The builtins -/

namespace Library

open Loading

instance (i : Nat) : OnWindow (textArg? i) := by
  unfold textArg?
  infer_instance

instance (result : Except LoadError Value) : OnWindow (report result) := by
  cases result <;> (unfold report; infer_instance)

instance (reader : Value) (chunkName : String) (text : Bytes) : OnWindow (askReader reader chunkName text) :=
  .look (fun _ _ ↦ rfl) fun _ ↦ inferInstance

instance : OnWindow environmentTarget? := by
  have hlevel : OnWindow (do
      let depth := (← argInt 0).toInt
      if depth = 0 then throw (.unsupported .threadEnvironment)
      if depth < 0 then throw (← badArgument 0 "level must be non-negative")
      return (← callFrame? depth.toNat).map Frame.closure : Machine (Option Nat)) := by
    refine .after fun depth ↦ ?_
    dsimp only
    split <;> infer_instance
  refine .after fun target ↦ ?_
  split
  · infer_instance
  · exact hlevel
  · exact hlevel
  · exact hlevel
  · infer_instance

instance (i : Nat) (default : Int) : OnWindow (listBound i default) := by
  unfold listBound
  infer_instance

instance (i : Nat) : OnWindow (numberArg i) := by
  refine .after fun v ↦ ?_
  split <;> infer_instance

instance (pick : Heap → Value → Value → Except RuntimeError Value) : OnWindow (foldArgs pick) := by
  refine .after fun values ↦ ?_
  split
  · infer_instance
  · exact .look (fun _ _ ↦ rfl) fun _ ↦ inferInstance

end Library

theorem Facade.of_onWindow {b : Native} (hstart : OnWindow b.start)
    (hresume : ∀ memo result, OnWindow (b.resume memo result)) : Nonempty (Facade b) := by
  obtain ⟨first, hfirst⟩ := hstart.stretch
  choose next hnext using fun memo result ↦ (hresume memo result).stretch
  exact ⟨⟨first, next, hfirst.symm, fun memo result ↦ (hnext memo result).symm⟩⟩

theorem Facade.plain (name : String) (body : Machine Unit) [OnWindow body] :
    Nonempty (Facade (Native.plain name body)) :=
  Facade.of_onWindow (OnWindow.after fun _ ↦ .pure _) fun _ _ ↦ .pure _

namespace Library

open Loading

theorem facade_print : Nonempty (Facade print) := by
  have hprint (host : Host) : Aside (modify fun s ↦ { s with host } : Machine PUnit) :=
    ⟨.modify fun _ _ ↦ rfl, .modify fun _ ↦ ⟨rfl, rfl⟩⟩
  refine @Facade.plain _ _ (.look (fun _ _ ↦ rfl) fun s ↦ .after fun values ↦
    .look (fun _ _ ↦ rfl) fun s ↦ ?_)
  split <;> infer_instance

theorem facade_dofile : Nonempty (Facade dofile) := by
  refine Facade.of_onWindow (.after fun name ↦ .after fun loaded ↦ ?_) fun memo result ↦ ?_
  · split <;> infer_instance
  · exact .after fun results ↦ inferInstance

theorem facade_load : Nonempty (Facade load) := by
  have hforget (location : Option Location) :
      Aside (modify fun s ↦ { s with location } : Machine PUnit) :=
    ⟨.modify fun _ _ ↦ rfl, .modify fun _ ↦ ⟨rfl, rfl⟩⟩
  refine Facade.of_onWindow (.after fun reader ↦ ?_) fun memo result ↦ ?_
  · split
    · infer_instance
    · exact .look (fun _ _ ↦ rfl) fun _ ↦ inferInstance
  · unfold load
    dsimp only
    split
    · split
      · infer_instance
      · refine .look (fun _ _ ↦ rfl) fun s ↦ ?_
        split <;> infer_instance
    · infer_instance

end Library

theorem Builtin.facade (b : Builtin) : Nonempty (Facade b.native) := by
  cases b
  case print => exact Library.facade_print
  case dofile => exact Library.facade_dofile
  case load => exact Library.facade_load
  case assert =>
    have hthrow (value : Value) : OnWindow (do
        throw (.assertion value ((← get).heap.toText value)) : Machine Unit) :=
      .look (fun _ _ ↦ rfl) fun _ ↦ inferInstance
    exact @Facade.plain _ _ (.after fun passes ↦ inferInstance)
  case tonumber =>
    refine @Facade.plain _ _ (.after fun v ↦ ?_)
    dsimp only
    split <;> refine .after fun base ↦ ?_
    all_goals
      split
      · exact .after fun e ↦ .after fun _ ↦ .after fun v ↦ .look (fun _ _ ↦ rfl) fun _ ↦ inferInstance
      · exact .after fun v ↦ .look (fun _ _ ↦ rfl) fun _ ↦ inferInstance
  case rawget | tostring => exact @Facade.plain _ _ (.look (fun _ _ ↦ rfl) fun _ ↦ inferInstance)
  case setfenv =>
    refine @Facade.plain _ _ (.after fun target ↦ .after fun env ↦ ?_)
    split <;> infer_instance
  case select =>
    refine @Facade.plain _ _ (.after fun count ↦ .after fun selector ↦ .look (fun _ _ ↦ rfl) fun s ↦ ?_)
    split
    · infer_instance
    · split <;> infer_instance
  case unpack =>
    refine @Facade.plain _ _ (.after fun list ↦ .look (fun _ _ ↦ rfl) fun s ↦ ?_)
    dsimp only
    split <;> infer_instance
  case abs => exact @Facade.plain _ _ (.after fun v ↦ .look (fun _ _ ↦ rfl) fun _ ↦ inferInstance)
  case rep =>
    refine @Facade.plain _ _ (.after fun s ↦ .after fun n ↦ ?_)
    dsimp only
    split
    · infer_instance
    · split <;> infer_instance
  all_goals exact Facade.plain _ _

end MiniLua
