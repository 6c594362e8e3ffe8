import MiniLua.Library.Registry
import MiniLua.Proofs.Effects

/-! Programs that change neither the operand stack nor the activations. -/

namespace MiniLua

open Effects

/-- The same operand stack and activations. -/
structure State.SameStack (s t : State) : Prop where
  stack : t.stack = s.stack
  activations : t.activations = s.activations

instance : Std.Refl State.SameStack := ⟨fun _ ↦ ⟨rfl, rfl⟩⟩

instance : IsTrans State State.SameStack :=
  ⟨fun _ _ _ h h' ↦ ⟨h'.stack.trans h.stack, h'.activations.trans h.activations⟩⟩

abbrev Quiet {ε α : Type} (m : EStateM ε State α) : Prop := Keeps State.SameStack m

namespace Machine

variable {α : Type}

theorem quiet_lift (r : Except RuntimeError α) : Quiet (lift r) := by
  cases r
  · exact .throw _
  · exact .pure _

theorem quiet_orOperand (v : Option α) : Quiet (orOperand v) := by
  cases v
  · exact .throw _
  · exact .pure _

theorem quiet_onHeap (f : Heap → α × Heap) : Quiet (onHeap f) := .modifyGet fun _ ↦ ⟨rfl, rfl⟩

theorem quiet_changeHeap (f : Heap → Heap) : Quiet (changeHeap f) := .modify fun _ ↦ ⟨rfl, rfl⟩

theorem quiet_bytesValue (bytes : Bytes) : Quiet (bytesValue bytes) :=
  (quiet_onHeap _).bind fun _ ↦ .pure _

theorem quiet_newTable : Quiet newTable := (quiet_onHeap _).bind fun _ ↦ .pure _

theorem quiet_index (object key : Value) : Quiet (index object key) := by
  refine Keeps.get.bind fun s ↦ ?_
  split
  · exact .pure _
  · exact .pure _
  · exact .throw _

theorem quiet_setIndex (object key value : Value) : Quiet (setIndex object key value) := by
  unfold setIndex
  split
  · split
    · refine Keeps.get.bind fun s ↦ ?_
      split
      · exact quiet_changeHeap _
      · exact .throw _
    · exact .throw _
  · exact .throw _

theorem quiet_frameCell (frame : Frame) (slot : Nat) : Quiet (frameCell frame slot) :=
  quiet_orOperand _

theorem quiet_upvalueCell (frame : Frame) (slot : Nat) : Quiet (upvalueCell frame slot) := by
  refine Keeps.get.bind fun s ↦ ?_
  split
  · exact quiet_orOperand _
  · exact .throw _

theorem quiet_environment (frame : Frame) : Quiet (environment frame) := by
  refine Keeps.get.bind fun s ↦ ?_
  split
  · exact .pure _
  · exact .throw _

theorem quiet_captured (frame : Frame) (upvalues : Array Nat) (captures : List Capture) :
    Quiet (captured frame upvalues captures) := by
  refine .mapM (fun c ↦ ?_) _
  cases c
  · exact quiet_frameCell _ _
  · exact quiet_orOperand _

theorem quiet_makeClosure (frame : Frame) (x : Nat) : Quiet (makeClosure frame x) := by
  refine Keeps.get.bind fun s ↦ ?_
  split
  · exact .throw _
  · refine Keeps.get.bind fun s ↦ (quiet_orOperand _).bind fun proto ↦ Keeps.get.bind fun s ↦ ?_
    split
    · exact .throw _
    · exact (quiet_captured _ _ _).bind fun _ ↦ (quiet_onHeap _).bind fun _ ↦ .pure _

theorem quiet_loopCells (frame : Frame) (x : Nat) : Quiet (loopCells frame x) :=
  (quiet_frameCell _ _).bind fun _ ↦ (quiet_frameCell _ _).bind fun _ ↦
    (quiet_frameCell _ _).bind fun _ ↦ .pure _

theorem quiet_loopNumber (v : Value) (what : String) : Quiet (loopNumber v what) := by
  refine Keeps.get.bind fun s ↦ ?_
  split
  · exact .pure _
  · exact .throw _

theorem quiet_prepareLoop (cells : LoopCells) : Quiet (prepareLoop cells) := by
  refine Keeps.get.bind fun s ↦ (quiet_loopNumber _ _).bind fun counter ↦
    (quiet_loopNumber _ _).bind fun limit ↦ (quiet_loopNumber _ _).bind fun step ↦ ?_
  dsimp only
  split <;>
  exact (quiet_changeHeap _).bind fun _ ↦ (quiet_changeHeap _).bind fun _ ↦ quiet_changeHeap _

theorem quiet_allocCells (args : List Value) (n : Nat) : Quiet (allocCells args n) := by
  induction n generalizing args with
  | zero => exact .pure _
  | succ n ih => exact (quiet_onHeap _).bind fun _ ↦ (ih _).bind fun _ ↦ .pure _

theorem quiet_argCount : Quiet argCount := Keeps.get.bind fun _ ↦ .pure _

theorem quiet_arg (i : Nat) : Quiet (arg i) := by
  refine Keeps.get.bind fun s ↦ ?_
  split
  · exact .pure _
  · exact .pure _

theorem quiet_args : Quiet args := quiet_argCount.bind fun _ ↦ .mapM quiet_arg _

theorem quiet_expectedResults : Quiet expectedResults := Keeps.get.bind fun _ ↦ .pure _

theorem quiet_callFrame? (depth : Nat) : Quiet (callFrame? depth) := by
  unfold callFrame?
  split
  · exact .pure _
  · exact Keeps.get.bind fun _ ↦ .pure _

theorem quiet_badArgument (i : Nat) (detail : String) : Quiet (badArgument i detail) :=
  Keeps.get.bind fun _ ↦ .pure _

theorem quiet_wrongType (i : Nat) (wanted : String) : Quiet (wrongType i wanted : Machine α) := by
  refine quiet_argCount.bind fun count ↦ ?_
  have hrest (got : String) :
      Quiet (do throw (← badArgument i (wanted ++ " expected, got " ++ got)) : Machine α) :=
    (quiet_badArgument _ _).bind fun _ ↦ .throw _
  split
  · exact ((quiet_arg i).map _).bind hrest
  · exact (Keeps.pure _).bind hrest

theorem quiet_argNumber? (i : Nat) : Quiet (argNumber? i) :=
  Keeps.get.bind fun _ ↦ (quiet_arg i).bind fun _ ↦ .pure _

theorem quiet_argInt (i : Nat) : Quiet (argInt i) := by
  refine (quiet_argNumber? i).bind fun v ↦ ?_
  split
  · exact .pure _
  · exact quiet_wrongType _ _

theorem quiet_argFloat (i : Nat) : Quiet (argFloat i) := by
  refine (quiet_argNumber? i).bind fun v ↦ ?_
  split
  · exact .pure _
  · exact quiet_wrongType _ _

theorem quiet_argBytes (i : Nat) : Quiet (argBytes i) := by
  refine (quiet_arg i).bind fun v ↦ ?_
  split
  · exact Keeps.get.bind fun _ ↦ .pure _
  · split
    · exact .pure _
    · exact quiet_wrongType _ _

theorem quiet_argBool (i : Nat) : Quiet (argBool i) := (quiet_arg i).bind fun _ ↦ .pure _

theorem quiet_raise (value : Value) : Quiet (raise value) := Keeps.get.bind fun _ ↦ .pure _

end Machine

namespace Loading

theorem quiet_decode (bytes : Bytes) (chunkName : String) : Quiet (decode bytes chunkName) := by
  intro s
  unfold decode
  split
  · split <;> exact ⟨rfl, rfl⟩
  · split
    · split <;> exact ⟨rfl, rfl⟩
    · exact ⟨rfl, rfl⟩

theorem quiet_note (event : StreamEvent) : Quiet (note event) := .modify fun _ ↦ ⟨rfl, rfl⟩

theorem quiet_drain (stream : Stream) (chunkName : String) : Quiet (drain stream chunkName) := by
  intro s
  unfold drain
  split <;> exact ⟨rfl, rfl⟩

theorem quiet_loadStream (stream : Stream) (chunkName : String) :
    Quiet (loadStream stream chunkName) := by
  intro s
  have hs : s.SameStack (final ((do decode (← drain stream chunkName) chunkName : Loader Nat) s)) :=
    (quiet_drain _ _).bind (fun _ ↦ quiet_decode _ _) s
  unfold loadStream
  split
  · next h =>
    rw [h] at hs
    exact ⟨hs.stack, hs.activations⟩
  · next h =>
    rw [h] at hs
    exact ⟨hs.stack, hs.activations⟩

theorem quiet_loadBytes (bytes : Bytes) (chunkName : String) : Quiet (loadBytes bytes chunkName) :=
  (quiet_note _).bind fun _ ↦ quiet_loadStream _ _

theorem quiet_openStream (name : Option String) : Quiet (openStream name) := by
  refine Keeps.get.bind fun s ↦ ?_
  dsimp only
  split
  · exact (quiet_note _).bind fun _ ↦ .pure _
  · split
    · exact (quiet_note _).bind fun _ ↦ .pure _
    · exact .throw _
    · exact .throw _

theorem quiet_loadFile (name : Option String) : Quiet (loadFile name) :=
  (quiet_openStream _).bind fun _ ↦ quiet_loadStream _ _

theorem quiet_attempt {α : Type} {loader : Loader α} (h : Quiet loader) :
    Quiet (attempt loader) := by
  intro s
  have hs := h s
  unfold attempt
  split
  · next h => rwa [h] at hs
  · next h => rwa [h] at hs

end Loading

end MiniLua
