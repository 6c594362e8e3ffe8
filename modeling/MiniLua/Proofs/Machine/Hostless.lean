import MiniLua.Library.Registry
import MiniLua.Proofs.Calls.Transparent

/-!
Programs to which the host does not matter: given another, they do the same and leave it as it is.
Instructions are such programs, and so are builtins as long as they neither load nor print.
-/

namespace MiniLua

open Effects Machine

/-- An ending in the same state but for the host. -/
def withHost {ε α : Type} (H : Host) : EStateM.Result ε State α → EStateM.Result ε State α
  | .ok a s => .ok a { s with host := H }
  | .error e s => .error e { s with host := H }

/-- A program to which the host does not matter. -/
class Hostless {ε α : Type} (m : EStateM ε State α) : Prop where
  run : ∀ (s : State) (H : Host), m { s with host := H } = withHost H (m s)

namespace Hostless

variable {ε α β γ : Type} {m : EStateM ε State α}

/-- The host is the same afterwards. -/
theorem host_final [hm : Hostless m] (s : State) : (final (m s)).host = s.host := by
  have h := hm.run s s.host
  cases hs : m s with
  | ok a t =>
    rw [hs] at h
    exact congrArg (fun r ↦ (final r).host) h
  | error e t =>
    rw [hs] at h
    exact congrArg (fun r ↦ (final r).host) h

instance pure (a : α) : Hostless (Pure.pure a : EStateM ε State α) := ⟨fun _ _ ↦ rfl⟩

instance throw (e : ε) : Hostless (throw e : EStateM ε State α) := ⟨fun _ _ ↦ rfl⟩

instance bind {f : α → EStateM ε State β} [hm : Hostless m] [hf : ∀ a, Hostless (f a)] :
    Hostless (m >>= f) := by
  refine ⟨fun s H ↦ ?_⟩
  rw [bind_apply, bind_apply, hm.run s H]
  cases m s with
  | ok a t => exact (hf a).run t H
  | error e t => rfl

instance map {f : α → β} [Hostless m] : Hostless (f <$> m) := by
  rw [← bind_pure_comp]
  infer_instance

instance ite {c : Prop} [Decidable c] {n : EStateM ε State α} [Hostless m] [Hostless n] :
    Hostless (if c then m else n) := by
  split <;> assumption

instance mapM {f : γ → EStateM ε State α} [∀ c, Hostless (f c)] (cs : List γ) :
    Hostless (cs.mapM f) := by
  induction cs with
  | nil => exact pure _
  | cons c cs ih =>
    rw [List.mapM_cons]
    infer_instance

instance forM {f : γ → EStateM ε State PUnit} [∀ c, Hostless (f c)] (cs : List γ) :
    Hostless (cs.forM f) := by
  induction cs with
  | nil => exact inferInstanceAs (Hostless (Pure.pure _))
  | cons c cs ih => exact inferInstanceAs (Hostless (f c >>= fun _ ↦ cs.forM f))

theorem after {f : α → EStateM ε State β} [Hostless m] (h : ∀ a, Hostless (f a)) :
    Hostless (m >>= f) := inferInstance

/-- A program that looks at the state, but not at the host. -/
theorem look {f : State → EStateM ε State β} (h : ∀ (s : State) (H : Host), f { s with host := H } = f s)
    (hf : ∀ s, Hostless (f s)) : Hostless (get >>= f) := by
  refine ⟨fun s H ↦ ?_⟩
  rw [bind_apply, bind_apply, get_apply, get_apply]
  dsimp only
  rw [h]
  exact (hf s).run s H

theorem modify {f : State → State} (h : ∀ (s : State) (H : Host), f { s with host := H } = { f s with host := H }) :
    Hostless (modify f : EStateM ε State PUnit) := ⟨fun s H ↦ congrArg (EStateM.Result.ok _) (h s H)⟩

end Hostless

namespace Machine

variable {α : Type}

instance (r : Except RuntimeError α) : Hostless (lift r) := by
  cases r with
  | error e => exact Hostless.throw e
  | ok a => exact Hostless.pure a

instance (v : Option α) : Hostless (orOperand v) := by
  cases v with
  | none => exact Hostless.throw _
  | some a => exact Hostless.pure a

instance (fault : TypeFault) : Hostless (typeError fault : Machine α) := Hostless.throw _

instance (f : Heap → α × Heap) : Hostless (onHeap f) := ⟨fun _ _ ↦ rfl⟩

instance (f : Heap → Heap) : Hostless (changeHeap f) := ⟨fun _ _ ↦ rfl⟩

instance (bytes : Bytes) : Hostless (bytesValue bytes) := by
  unfold bytesValue
  infer_instance

instance (text : String) : Hostless (textValue text) := inferInstanceAs (Hostless (bytesValue _))

instance : Hostless newTable := by
  unfold newTable
  infer_instance

/-! ### The stack -/

instance (v : Value) : Hostless (push v) := by
  refine .look (fun _ _ ↦ rfl) fun s ↦ ?_
  have hpush : Hostless (modify fun s ↦ { s with stack := s.stack.push v } : Machine PUnit) :=
    .modify fun _ _ ↦ rfl
  infer_instance

instance (vs : List Value) : Hostless (pushAll vs) := inferInstanceAs (Hostless (vs.forM push))

instance : Hostless top := by
  refine .look (fun _ _ ↦ rfl) fun s ↦ ?_
  split <;> infer_instance

instance : Hostless pop := by
  have hpop : Hostless (modify fun s ↦ { s with stack := s.stack.pop } : Machine PUnit) :=
    .modify fun _ _ ↦ rfl
  unfold pop
  infer_instance

instance (n : Nat) : Hostless (popMany n) := by
  have hpop (size : Nat) : Hostless (modify fun s ↦ s.truncate size : Machine PUnit) :=
    .modify fun _ _ ↦ rfl
  have htop (size : Nat) : Hostless (do
      let values := ((← get).stack.extract (size - n) size).toList
      modify fun s ↦ s.truncate (size - n)
      return values : Machine (List Value)) := .look (fun _ _ ↦ rfl) fun _ ↦ inferInstance
  refine .look (fun _ _ ↦ rfl) fun s ↦ ?_
  infer_instance

instance (results : List Value) (expected : Option Nat) : Hostless (placeResults results expected) := by
  have hcount : Hostless (modify fun s ↦ { s with lastMulti := results.length } : Machine PUnit) :=
    .modify fun _ _ ↦ rfl
  cases expected <;> (unfold placeResults; infer_instance)

/-! ### Instructions -/

instance (object key : Value) : Hostless (index object key) := by
  refine .look (fun _ _ ↦ rfl) fun s ↦ ?_
  split <;> infer_instance

instance (object key value : Value) : Hostless (setIndex object key value) := by
  unfold setIndex
  split
  · split
    · exact .look (fun _ _ ↦ rfl) fun _ ↦ inferInstance
    · infer_instance
  · infer_instance

instance (frame : Frame) (slot : Nat) : Hostless (frameCell frame slot) :=
  inferInstanceAs (Hostless (orOperand _))

instance (frame : Frame) (slot : Nat) : Hostless (upvalueCell frame slot) := by
  refine .look (fun _ _ ↦ rfl) fun s ↦ ?_
  split <;> infer_instance

instance (frame : Frame) : Hostless (environment frame) := by
  refine .look (fun _ _ ↦ rfl) fun s ↦ ?_
  split <;> infer_instance

instance (cell : Nat) : Hostless (loadCell cell) := .look (fun _ _ ↦ rfl) fun _ ↦ inferInstance

instance (cell : Nat) : Hostless (storeCell cell) := by
  unfold storeCell
  infer_instance

instance (frame : Frame) (upvalues : Array Nat) (captures : List Capture) :
    Hostless (captured frame upvalues captures) := by
  have hcell (c : Capture) : Hostless (match c with
      | .cell n => frameCell frame n
      | .upvalue n => orOperand upvalues[n]?) := by
    split <;> infer_instance
  exact Hostless.mapM captures

instance (frame : Frame) (x : Nat) : Hostless (makeClosure frame x) := by
  refine .look (fun _ _ ↦ rfl) fun s ↦ ?_
  split
  · infer_instance
  · refine .look (fun _ _ ↦ rfl) fun s ↦ .after fun proto ↦ .look (fun _ _ ↦ rfl) fun s ↦ ?_
    split <;> infer_instance

instance (frame : Frame) (x : Nat) : Hostless (loopCells frame x) := by
  unfold loopCells
  infer_instance

instance (v : Value) (what : String) : Hostless (loopNumber v what) := by
  refine .look (fun _ _ ↦ rfl) fun s ↦ ?_
  split <;> infer_instance

instance (cells : LoopCells) : Hostless (prepareLoop cells) := by
  refine .look (fun _ _ ↦ rfl) fun s ↦ .after fun counter ↦ .after fun limit ↦ .after fun step ↦ ?_
  dsimp only
  split <;> infer_instance

instance (cells : LoopCells) : Hostless (advanceLoop cells) := inferInstanceAs (Hostless (changeHeap _))

instance (op : Opcode) : Hostless (binary op) := by
  refine .after fun b ↦ .after fun a ↦ .look (fun _ _ ↦ rfl) fun s ↦ ?_
  dsimp only
  split <;> infer_instance

instance (start : Nat) : Hostless (fillTable start) := by
  refine .look (fun _ _ ↦ rfl) fun s ↦ .after fun values ↦ .after fun v ↦ ?_
  split
  · exact .look (fun _ _ ↦ rfl) fun s ↦ inferInstance
  · infer_instance

instance (i : Instruction) : Hostless (operandCount i) := .look (fun _ _ ↦ rfl) fun _ ↦ inferInstance

instance (f : Frame → Frame) : Hostless (changeFrame f) := by
  refine .modify fun s H ↦ ?_
  dsimp only
  split <;> rfl

instance (x : Nat) : Hostless (goTo x) := inferInstanceAs (Hostless (changeFrame _))

instance (m : Machine α) [Hostless m] : Hostless (discard m) :=
  inferInstanceAs (Hostless (Functor.map _ m))

instance (keep : Value → Bool) (x : Nat) : Hostless (jumpKeeping keep x) := by
  unfold jumpKeeping
  infer_instance

instance (frame : Frame) (constants : Array Value) (i : Instruction) (op : Opcode) :
    Hostless (perform frame constants i op) := by
  unfold perform
  cases op
  case getGlobal =>
    exact .after fun key ↦ .after fun env ↦ .look (fun _ _ ↦ rfl) fun s ↦ inferInstance
  case neg | len => exact .look (fun _ _ ↦ rfl) fun s ↦ inferInstance
  case forTest => exact .look (fun _ _ ↦ rfl) fun s ↦ inferInstance
  all_goals
    dsimp only
    infer_instance

instance : Hostless instruction := by
  refine .look (fun _ _ ↦ rfl) fun s ↦ ?_
  split
  · refine .look (fun _ _ ↦ rfl) fun s ↦ ?_
    split
    · infer_instance
    · split
      · infer_instance
      · refine .after fun _ ↦ ?_
        split <;> infer_instance
  · infer_instance

/-! ### Calls -/

instance : Hostless checkDepth := .look (fun _ _ ↦ rfl) fun _ ↦ inferInstance

instance (args : List Value) (n : Nat) : Hostless (allocCells args n) := by
  induction n generalizing args with
  | zero => exact Hostless.pure _
  | succ n ih => exact .after fun cell ↦ @Hostless.bind _ _ _ _ _ (ih _) _

instance (closure floor : Nat) (expected : Option Nat) : Hostless (enterClosure closure floor expected) := by
  have hcut : Hostless (modify fun s ↦ s.truncate floor : Machine PUnit) := .modify fun _ _ ↦ rfl
  have hframe (frame : Frame) : Hostless
      (modify fun s ↦ { s with activations := .guest frame :: s.activations } : Machine PUnit) :=
    .modify fun _ _ ↦ rfl
  refine .after fun _ ↦ .look (fun _ _ ↦ rfl) fun s ↦ ?_
  split
  · infer_instance
  · refine .look (fun _ _ ↦ rfl) fun s ↦ .look (fun _ _ ↦ rfl) fun t ↦ ?_
    infer_instance

instance (natives : Array Native) (native floor argCount : Nat) (expected : Option Nat) :
    Hostless (enterNative natives native floor argCount expected) := by
  have hcall (call : NativeCall) : Hostless
      (modify fun s ↦ { s with activations := .native call :: s.activations } : Machine PUnit) :=
    .modify fun _ _ ↦ rfl
  refine .after fun _ ↦ ?_
  split <;> infer_instance

/-! ### Arguments and results of builtins -/

instance : Hostless argCount := .look (fun _ _ ↦ rfl) fun _ ↦ inferInstance

instance (i : Nat) : Hostless (arg i) := by
  refine .look (fun _ _ ↦ rfl) fun s ↦ ?_
  split <;> infer_instance

instance : Hostless args := by
  unfold args
  infer_instance

instance : Hostless expectedResults := .look (fun _ _ ↦ rfl) fun _ ↦ inferInstance

instance (values : List Value) : Hostless (setResults values) := by
  refine .modify fun s H ↦ ?_
  have hnative : State.native? { s with host := H } = s.native? := rfl
  rw [hnative]
  split <;> rfl

instance (depth : Nat) : Hostless (callFrame? depth) := by
  unfold callFrame?
  split
  · infer_instance
  · exact .look (fun _ _ ↦ rfl) fun _ ↦ inferInstance

instance (i : Nat) (detail : String) : Hostless (badArgument i detail) :=
  .look (fun _ _ ↦ rfl) fun _ ↦ inferInstance

instance (i : Nat) (wanted : String) : Hostless (wrongType i wanted : Machine α) := by
  unfold wrongType
  infer_instance

instance (i : Nat) : Hostless (argNumber? i) := .look (fun _ _ ↦ rfl) fun _ ↦ inferInstance

instance (i : Nat) : Hostless (argInt i) := by
  refine .after fun v ↦ ?_
  split <;> infer_instance

instance (i : Nat) : Hostless (argFloat i) := by
  refine .after fun v ↦ ?_
  split <;> infer_instance

instance (i : Nat) : Hostless (argBytes i) := by
  refine .after fun v ↦ ?_
  split
  · exact .look (fun _ _ ↦ rfl) fun _ ↦ inferInstance
  · split <;> infer_instance

instance (i : Nat) : Hostless (argBool i) := by
  unfold argBool
  infer_instance

instance (value : Value) : Hostless (raise value) := .look (fun _ _ ↦ rfl) fun _ ↦ inferInstance

end Machine

/-! ### Loading -/

namespace Loading

/-- A chunk is read and compiled without a look at the host. -/
instance (bytes : Bytes) (chunkName : String) : Hostless (decode bytes chunkName) := by
  refine ⟨fun s H ↦ ?_⟩
  unfold decode
  dsimp only
  split
  · split <;> rfl
  · split
    · split <;> rfl
    · rfl

instance (proto : Nat) : Hostless (closureOf proto) := ⟨fun _ _ ↦ rfl⟩

end Loading

namespace Library

open Loading

instance (i : Nat) : Hostless (textArg? i) := by
  unfold textArg?
  infer_instance

instance (result : Except LoadError Value) : Hostless (report result) := by
  cases result <;> (unfold report; infer_instance)

instance (reader : Value) (chunkName : String) (text : Bytes) : Hostless (askReader reader chunkName text) :=
  .look (fun _ _ ↦ rfl) fun _ ↦ inferInstance

instance : Hostless environmentTarget? := by
  have hlevel : Hostless (do
      let depth := (← argInt 0).toInt
      if depth = 0 then throw (.unsupported .threadEnvironment)
      if depth < 0 then throw (← badArgument 0 "level must be non-negative")
      return (← callFrame? depth.toNat).map Frame.closure : Machine (Option Nat)) := by
    refine .after fun depth ↦ ?_
    dsimp only
    split <;> infer_instance
  refine .after fun target ↦ ?_
  split
  · infer_instance
  · exact hlevel
  · exact hlevel
  · exact hlevel
  · infer_instance

instance (i : Nat) (default : Int) : Hostless (listBound i default) := by
  unfold listBound
  infer_instance

instance (i : Nat) : Hostless (numberArg i) := by
  refine .after fun v ↦ ?_
  split <;> infer_instance

instance (pick : Heap → Value → Value → Except RuntimeError Value) : Hostless (foldArgs pick) := by
  refine .after fun values ↦ ?_
  split
  · infer_instance
  · exact .look (fun _ _ ↦ rfl) fun _ ↦ inferInstance

end Library

/-- A builtin to which the host does not matter. -/
structure Native.Hostless (n : Native) : Prop where
  start : MiniLua.Hostless n.start
  resume : ∀ memo result, MiniLua.Hostless (n.resume memo result)

theorem Native.Hostless.plain (name : String) (body : Machine Unit) [MiniLua.Hostless body] :
    (Native.plain name body).Hostless where
  start := MiniLua.Hostless.bind
  resume _ _ := MiniLua.Hostless.pure _

/-- The builtins that load a chunk or print. -/
def Builtin.usesHost : Builtin → Bool
  | .loadfile | .dofile | .loadstring | .load | .print => true
  | _ => false

theorem Builtin.hostless (b : Builtin) (hb : b.usesHost = false) : b.native.Hostless := by
  cases b
  case loadfile | dofile | loadstring | load | print => cases hb
  case assert =>
    refine @Native.Hostless.plain _ _ (.after fun passes ↦ ?_)
    have hthrow (value : Value) : Hostless (do
        throw (.assertion value ((← get).heap.toText value)) : Machine Unit) :=
      .look (fun _ _ ↦ rfl) fun _ ↦ inferInstance
    infer_instance
  case tonumber =>
    refine @Native.Hostless.plain _ _ (.after fun v ↦ ?_)
    dsimp only
    split <;> refine .after fun base ↦ ?_
    all_goals
      split
      · exact .after fun e ↦ .after fun _ ↦ .after fun v ↦ .look (fun _ _ ↦ rfl) fun _ ↦ inferInstance
      · exact .after fun v ↦ .look (fun _ _ ↦ rfl) fun _ ↦ inferInstance
  case rawget =>
    exact @Native.Hostless.plain _ _ (.look (fun _ _ ↦ rfl) fun _ ↦ inferInstance)
  case setfenv =>
    refine @Native.Hostless.plain _ _ (.after fun target ↦ .after fun env ↦ ?_)
    split <;> infer_instance
  case select =>
    refine @Native.Hostless.plain _ _ (.after fun count ↦ .after fun selector ↦
      .look (fun _ _ ↦ rfl) fun s ↦ ?_)
    split
    · infer_instance
    · split <;> infer_instance
  case tostring =>
    exact @Native.Hostless.plain _ _ (.look (fun _ _ ↦ rfl) fun _ ↦ inferInstance)
  case unpack =>
    refine @Native.Hostless.plain _ _ (.after fun list ↦ .look (fun _ _ ↦ rfl) fun s ↦ ?_)
    dsimp only
    split <;> infer_instance
  case abs =>
    exact @Native.Hostless.plain _ _ (.after fun v ↦ .look (fun _ _ ↦ rfl) fun _ ↦ inferInstance)
  case rep =>
    refine @Native.Hostless.plain _ _ (.after fun s ↦ .after fun n ↦ ?_)
    dsimp only
    split
    · infer_instance
    · split <;> infer_instance
  all_goals exact .plain _ _

end MiniLua
