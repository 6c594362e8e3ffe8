import MiniLua.Library.Registry
import MiniLua.Proofs.Calls.Reach
import MiniLua.Proofs.Machine.Code

/-!
What programs leave as it is. Most neither change the limits nor note a place, lose no code and leave
cells alone. Those that instructions are made of also respect the height the stack is allowed, and
leave the activations below the innermost function alone; a builtin may fill its window as high as it
likes.
-/

namespace MiniLua

open Effects

/-- The code and closures there were are there, no new closure holds a cell, and cells are the same. -/
structure Heap.Spares (h k : Heap) : Prop where
  code : h.Conserves k
  bare : ∀ (c : Nat) (link : Nat × Array Nat), k.links[c]? = some link →
    h.links[c]? = some link ∨ link.2 = #[]
  cells : k.cells = h.cells

/-- Besides, nothing was called or left. -/
structure State.Calm (s t : State) : Prop extends s.heap.Spares t.heap where
  calls : t.activations = s.activations

/-- Besides, the options and the noted place are the same. -/
structure State.Tame (s t : State) : Prop extends s.Calm t where
  options : t.options = s.options
  location : t.location = s.location

/-- The options and the noted place are the same, the code and closures there were are there, nothing
was called or left, and the stack did not grow over its limit. -/
structure State.Modest (s t : State) : Prop where
  options : t.options = s.options
  location : t.location = s.location
  code : s.heap.Conserves t.heap
  calls : SameCalls s.activations t.activations
  fits : t.stack.size ≤ max s.stack.size s.options.maxStack

/-- A relation that allows a program to compute with values and to load code. -/
class Sparing (R : State → State → Prop) : Prop extends Std.Refl R, IsTrans State R where
  intern (s : State) (bytes : Bytes) : R s { s with heap := (s.heap.intern bytes).2 }
  tables (s : State) (tables : Array Table) : R s { s with heap := { s.heap with tables } }
  operands (s : State) (stack : Array Value) (lastMulti : Nat)
    (h : stack.size ≤ max s.stack.size s.options.maxStack) : R s { s with stack, lastMulti }
  host (s : State) (host : Host) : R s { s with host }
  loads (s : State) (heap : Heap) (h : s.heap.Adds heap)
    (hexact : s.heap.strings.Exact → heap.strings.Exact) : R s { s with heap }
  closure (s : State) (proto : Nat) :
    R s { s with heap := (s.heap.allocClosure ⟨proto, s.globals, #[]⟩).2 }

/-- A relation that also allows another environment for a closure. -/
class Tolerant (R : State → State → Prop) : Prop extends Sparing R where
  environment (s : State) (c env : Nat) :
    R s { s with heap := { s.heap with closures := s.heap.closures.modify c fun c ↦ { c with env } } }

/-- A tolerant relation that strings do not matter to. -/
class Lenient (R : State → State → Prop) : Prop extends Std.Refl R, IsTrans State R where
  objects (s : State) (strings : StringPool) (tables : Array Table) :
    R s { s with heap := { s.heap with strings, tables } }
  operands (s : State) (stack : Array Value) (lastMulti : Nat)
    (h : stack.size ≤ max s.stack.size s.options.maxStack) : R s { s with stack, lastMulti }
  host (s : State) (host : Host) : R s { s with host }
  loads (s : State) (heap : Heap) (h : s.heap.Adds heap) : R s { s with heap }
  closure (s : State) (proto env : Nat) :
    R s { s with heap := (s.heap.allocClosure ⟨proto, env, #[]⟩).2 }
  environment (s : State) (c env : Nat) :
    R s { s with heap := { s.heap with closures := s.heap.closures.modify c fun c ↦ { c with env } } }

instance {R : State → State → Prop} [Lenient R] : Tolerant R where
  intern s _ := Lenient.objects s _ s.heap.tables
  tables s tables := Lenient.objects s s.heap.strings tables
  operands := Lenient.operands
  host := Lenient.host
  loads s heap h _ := Lenient.loads s heap h
  closure s proto := Lenient.closure s proto s.globals
  environment := Lenient.environment

/-- A relation that allows all that instructions do but making closures. -/
class Frugal (R : State → State → Prop) : Prop extends Sparing R where
  cells (s : State) (cells : Array Value) : R s { s with heap := { s.heap with cells } }
  frame (s : State) (frame : Frame) (ip : Nat) (cells : Array (Option Nat)) (rest : List Activation)
    (h : s.activations = .guest frame :: rest) :
    R s { s with activations := .guest { frame with ip, cells } :: rest }

/-- A relation that allows all that an instruction does. -/
class Permissive (R : State → State → Prop) : Prop extends Tolerant R, Frugal R where
  made (s : State) (c : Closure) : R s { s with heap := (s.heap.allocClosure c).2 }

namespace Heap

variable {h k l : Heap}

theorem Spares.refl (h : Heap) : h.Spares h := ⟨.refl _, fun _ _ ↦ .inl, rfl⟩

theorem Spares.trans (g : h.Spares k) (g' : k.Spares l) : h.Spares l := by
  refine ⟨g.code.trans g'.code, fun c link hlink ↦ ?_, g'.cells.trans g.cells⟩
  obtain hlink | hbare := g'.bare c link hlink
  · exact g.bare c link hlink
  · exact .inr hbare

/-- Another environment changes neither a closure's code nor its cells. -/
theorem links_modify_env (h : Heap) (c env : Nat) :
    links { h with closures := h.closures.modify c fun c ↦ { c with env } } = h.links := by
  refine Array.ext_getElem? fun i ↦ ?_
  simp only [links, Array.getElem?_map, Array.getElem?_modify]
  split
  · rw [Option.map_map]
    rfl
  · rfl

theorem bare_allocClosure {proto env c : Nat} {link : Nat × Array Nat}
    (hlink : (h.allocClosure ⟨proto, env, #[]⟩).2.links[c]? = some link) :
    h.links[c]? = some link ∨ link.2 = #[] := by
  rw [links_allocClosure, Array.getElem?_push] at hlink
  split at hlink
  · cases hlink
    exact .inr rfl
  · exact .inl hlink

end Heap

namespace State

instance : Std.Refl Calm := ⟨fun _ ↦ ⟨.refl _, rfl⟩⟩

instance : IsTrans State Calm :=
  ⟨fun _ _ _ h h' ↦ ⟨h.toSpares.trans h'.toSpares, h'.calls.trans h.calls⟩⟩

theorem Calm.of_links {s t : State} (hprotos : ∀ (i : Nat) (p : Prototype),
      s.heap.protos[i]? = some p → t.heap.protos[i]? = some p) (hlinks : t.heap.links = s.heap.links)
    (hcells : t.heap.cells = s.heap.cells) (hcalls : t.activations = s.activations) :
    s.Calm t :=
  ⟨⟨⟨fun hp ↦ hprotos _ _ hp, fun hlink ↦ hlinks ▸ hlink⟩, fun _ _ hlink ↦ .inl (hlinks ▸ hlink),
    hcells⟩, hcalls⟩

instance : Lenient Calm where
  objects _ _ _ := .of_links (fun _ _ ↦ id) rfl rfl rfl
  operands _ _ _ _ := .of_links (fun _ _ ↦ id) rfl rfl rfl
  host _ _ := .of_links (fun _ _ ↦ id) rfl rfl rfl
  loads _ _ h := .of_links (fun _ _ ↦ h.protos) (congrArg (Array.map _) h.closures) h.cells rfl
  closure _ _ _ := ⟨⟨.allocClosure _ _, fun _ _ ↦ Heap.bare_allocClosure, rfl⟩, rfl⟩
  environment s c env := .of_links (fun _ _ ↦ id) (s.heap.links_modify_env c env) rfl rfl

instance : Std.Refl Tame := ⟨fun s ↦ ⟨Std.Refl.refl s, rfl, rfl⟩⟩

instance : IsTrans State Tame where
  trans _ _ _ h h' := ⟨IsTrans.trans _ _ _ h.toCalm h'.toCalm, h'.options.trans h.options,
    h'.location.trans h.location⟩

instance : Lenient Tame where
  objects s strings tables := ⟨Lenient.objects s strings tables, rfl, rfl⟩
  operands s stack lastMulti h := ⟨Lenient.operands s stack lastMulti h, rfl, rfl⟩
  host s host := ⟨Lenient.host s host, rfl, rfl⟩
  loads s heap h := ⟨Lenient.loads s heap h, rfl, rfl⟩
  closure s proto env := ⟨Lenient.closure s proto env, rfl, rfl⟩
  environment s c env := ⟨Lenient.environment s c env, rfl, rfl⟩

theorem Modest.withHeap {s : State} {heap : Heap} (h : s.heap.Conserves heap) :
    s.Modest { s with heap } := ⟨rfl, rfl, h, .refl _, Nat.le_max_left _ _⟩

instance : Std.Refl Modest := ⟨fun _ ↦ ⟨rfl, rfl, .refl _, .refl _, Nat.le_max_left _ _⟩⟩

instance : IsTrans State Modest where
  trans s t u h h' := by
    have hfits := h'.fits
    rw [h.options] at hfits
    exact ⟨h'.options.trans h.options, h'.location.trans h.location, h.code.trans h'.code,
      h.calls.trans h'.calls, hfits.trans (Nat.max_le.mpr ⟨h.fits, Nat.le_max_right _ _⟩)⟩

instance : Lenient Modest where
  objects _ _ _ := .withHeap ⟨id, id⟩
  operands _ _ _ h := ⟨rfl, rfl, .refl _, .refl _, h⟩
  host _ _ := ⟨rfl, rfl, .refl _, .refl _, Nat.le_max_left _ _⟩
  loads _ _ h := .withHeap h.conserves
  closure _ _ _ := .withHeap (.allocClosure _ _)
  environment s c env := .withHeap ⟨id, fun hlink ↦ (s.heap.links_modify_env c env).symm ▸ hlink⟩

instance : Permissive Modest where
  cells _ _ := .withHeap ⟨id, id⟩
  made _ c := .withHeap (.allocClosure _ c)
  frame _ frame ip cells rest h :=
    ⟨rfl, rfl, .refl _, h ▸ .guest frame ip cells rest, Nat.le_max_left _ _⟩

end State

/-- A program that abides by `R`. -/
class Abides (R : State → State → Prop) {ε α : Type} (m : EStateM ε State α) : Prop where
  keeps : Keeps R m

abbrev Tame {ε α : Type} (m : EStateM ε State α) : Prop := Abides State.Tame m

abbrev Modest {ε α : Type} (m : EStateM ε State α) : Prop := Abides State.Modest m

namespace Abides

variable {R : State → State → Prop} {ε α β : Type} {m : EStateM ε State α}

instance map {f : α → β} [hm : Abides R m] : Abides R (f <$> m) := ⟨hm.keeps.map f⟩

theorem modify {f : State → State} (h : ∀ s, R s (f s)) :
    Abides R (modify f : EStateM ε State PUnit) := ⟨.modify h⟩

theorem modifyGet {f : State → α × State} (h : ∀ s, R s (f s).2) :
    Abides R (modifyGet f : EStateM ε State α) := ⟨.modifyGet h⟩

variable [IsTrans State R]

instance bind {f : α → EStateM ε State β} [hm : Abides R m] [hf : ∀ a, Abides R (f a)] :
    Abides R (m >>= f) := ⟨hm.keeps.bind fun a ↦ (hf a).keeps⟩

theorem after {f : α → EStateM ε State β} [Abides R m] (h : ∀ a, Abides R (f a)) :
    Abides R (m >>= f) := inferInstance

instance ite {c : Prop} [Decidable c] {n : EStateM ε State α} [Abides R m] [Abides R n] :
    Abides R (if c then m else n) := by
  split <;> assumption

variable [Std.Refl R]

instance pure (a : α) : Abides R (Pure.pure a : EStateM ε State α) := ⟨.pure a⟩

instance throw (e : ε) : Abides R (throw e : EStateM ε State α) := ⟨.throw e⟩

instance get : Abides R (get : EStateM ε State State) := ⟨.get⟩

instance mapM {γ : Type} {f : γ → EStateM ε State α} [hf : ∀ c, Abides R (f c)] (cs : List γ) :
    Abides R (cs.mapM f) := ⟨.mapM (fun c ↦ (hf c).keeps) cs⟩

instance forM {γ : Type} {f : γ → EStateM ε State PUnit} [hf : ∀ c, Abides R (f c)]
    (cs : List γ) : Abides R (cs.forM f) := by
  induction cs with
  | nil => exact inferInstanceAs (Abides R (Pure.pure _))
  | cons c cs ih => exact inferInstanceAs (Abides R (f c >>= fun _ ↦ cs.forM f))

end Abides

namespace Machine

variable {α : Type}

section

variable {R : State → State → Prop} [Sparing R]

instance (r : Except RuntimeError α) : Abides R (lift r) := by
  cases r
  · exact inferInstanceAs (Abides R (throw _))
  · exact inferInstanceAs (Abides R (pure _))

instance (v : Option α) : Abides R (orOperand v) := by
  cases v
  · exact inferInstanceAs (Abides R (throw _))
  · exact inferInstanceAs (Abides R (pure _))

instance (fault : TypeFault) : Abides R (typeError fault : Machine α) := Abides.throw _

instance (s : Bytes) : Abides R (onHeap fun h ↦ h.intern s) :=
  .modifyGet fun t ↦ Sparing.intern t s

instance (t : Table) : Abides R (onHeap fun h ↦ h.allocTable t) :=
  .modifyGet fun s ↦ Sparing.tables s _

instance (t : Nat) (f : Table → Table) : Abides R (changeHeap fun h ↦ h.modifyTable t f) :=
  .modify fun s ↦ Sparing.tables s _

instance (bytes : Bytes) : Abides R (bytesValue bytes) := by
  unfold bytesValue
  infer_instance

instance (text : String) : Abides R (textValue text) := inferInstanceAs (Abides R (bytesValue _))

instance : Abides R newTable := by
  unfold newTable
  infer_instance

instance (proto : Nat) : Abides R (newClosure proto) := ⟨fun s ↦ Sparing.closure s proto⟩

instance (v : Value) : Abides R (push v) := by
  refine ⟨fun s ↦ ?_⟩
  rw [push_apply]
  split
  · next hroom =>
    refine Sparing.operands s (s.stack.push v) s.lastMulti ?_
    rw [Array.size_push]
    exact (Nat.succ_le_of_lt hroom).trans (Nat.le_max_right _ _)
  · exact Std.Refl.refl s

instance (vs : List Value) : Abides R (pushAll vs) := inferInstanceAs (Abides R (vs.forM push))

instance : Abides R top := by
  refine .after fun s ↦ ?_
  split <;> infer_instance

theorem abides_shorten (f : Array Value → Array Value) (h : ∀ a, (f a).size ≤ a.size) :
    Abides R (modify fun s ↦ { s with stack := f s.stack } : Machine PUnit) :=
  .modify fun s ↦ Sparing.operands s _ _ ((h s.stack).trans (Nat.le_max_left _ _))

instance : Abides R pop := by
  have hpop := abides_shorten (R := R) Array.pop fun a ↦ by rw [Array.size_pop]; omega
  unfold pop
  infer_instance

instance (n : Nat) : Abides R (popMany n) := by
  have hpop (size : Nat) : Abides R (modify fun s ↦ s.truncate size : Machine PUnit) :=
    abides_shorten (·.shrink size) fun a ↦ by rw [Array.size_shrink]; omega
  unfold popMany
  infer_instance

instance (object key : Value) : Abides R (index object key) := by
  refine .after fun s ↦ ?_
  split <;> infer_instance

instance (object key value : Value) : Abides R (setIndex object key value) := by
  unfold setIndex
  split
  · split <;> infer_instance
  · infer_instance

instance (name : String) (value : Value) : Abides R (setGlobal name value) := by
  unfold setGlobal
  infer_instance

instance (results : List Value) (expected : Option Nat) :
    Abides R (placeResults results expected) := by
  have hcount : Abides R (modify fun s ↦ { s with lastMulti := results.length } : Machine PUnit) :=
    .modify fun s ↦ Sparing.operands s s.stack _ (Nat.le_max_left _ _)
  cases expected <;> (unfold placeResults; infer_instance)

instance (frame : Frame) (slot : Nat) : Abides R (frameCell frame slot) :=
  inferInstanceAs (Abides R (orOperand _))

instance (frame : Frame) (slot : Nat) : Abides R (upvalueCell frame slot) := by
  refine .after fun s ↦ ?_
  split <;> infer_instance

instance (frame : Frame) : Abides R (environment frame) := by
  refine .after fun s ↦ ?_
  split <;> infer_instance

instance (cell : Nat) : Abides R (loadCell cell) := by
  unfold loadCell
  infer_instance

instance (frame : Frame) (upvalues : Array Nat) (captures : List Capture) :
    Abides R (captured frame upvalues captures) := by
  have hcell (c : Capture) : Abides R (match c with
      | .cell n => frameCell frame n
      | .upvalue n => orOperand upvalues[n]?) := by
    split <;> infer_instance
  exact Abides.mapM captures

instance (frame : Frame) (x : Nat) : Abides R (loopCells frame x) := by
  unfold loopCells
  infer_instance

instance (v : Value) (what : String) : Abides R (loopNumber v what) := by
  refine .after fun s ↦ ?_
  split <;> infer_instance

instance (op : Opcode) : Abides R (binary op) := by
  refine .after fun b ↦ .after fun a ↦ .after fun s ↦ ?_
  dsimp only
  split <;> infer_instance

instance (start : Nat) : Abides R (fillTable start) := by
  refine .after fun s ↦ .after fun values ↦ .after fun v ↦ ?_
  split
  · refine .after fun s ↦ ?_
    split <;> infer_instance
  · infer_instance

instance (i : Instruction) : Abides R (operandCount i) := by
  unfold operandCount
  infer_instance

instance (m : Machine α) [Abides R m] : Abides R (discard m) :=
  inferInstanceAs (Abides R (Functor.map _ m))

end

section

variable {R : State → State → Prop} [Frugal R]

instance (v : Value) : Abides R (onHeap fun h ↦ h.allocCell v) :=
  .modifyGet fun s ↦ Frugal.cells s _

theorem abides_setCell (cell : Nat) (f : Heap → Value) :
    Abides R (changeHeap fun h ↦ h.setCell cell (f h)) := .modify fun s ↦ Frugal.cells s _

instance (cell : Nat) (v : Value) : Abides R (changeHeap fun h ↦ h.setCell cell v) :=
  abides_setCell cell fun _ ↦ v

theorem abides_changeFrame {f : Frame → Frame}
    (hf : ∀ frame, ∃ ip cells, f frame = { frame with ip, cells }) : Abides R (changeFrame f) := by
  refine ⟨fun s ↦ ?_⟩
  rw [changeFrame_apply, final_ok]
  split
  · next frame rest hcalls =>
    obtain ⟨ip, cells, hframe⟩ := hf frame
    rw [hframe]
    exact Frugal.frame s frame ip cells rest hcalls
  · exact Std.Refl.refl s

instance (x : Nat) : Abides R (goTo x) := abides_changeFrame fun frame ↦ ⟨x, frame.cells, rfl⟩

instance (x : Nat) (cell : Option Nat) :
    Abides R (changeFrame fun f ↦ { f with cells := f.cells.setIfInBounds x cell }) :=
  abides_changeFrame fun frame ↦ ⟨frame.ip, _, rfl⟩

instance (keep : Value → Bool) (x : Nat) : Abides R (jumpKeeping keep x) := by
  unfold jumpKeeping
  infer_instance

instance (cell : Nat) : Abides R (storeCell cell) := by
  unfold storeCell
  infer_instance

instance (cells : LoopCells) : Abides R (prepareLoop cells) := by
  refine .after fun s ↦ .after fun counter ↦ .after fun limit ↦ .after fun step ↦ ?_
  dsimp only
  split <;> infer_instance

instance (cells : LoopCells) : Abides R (advanceLoop cells) := abides_setCell cells.counter _

theorem abides_perform (frame : Frame) (constants : Array Value) (i : Instruction) {op : Opcode}
    (h : op ≠ .closure) : Abides R (perform frame constants i op) := by
  cases op
  case closure => exact absurd rfl h
  all_goals
    simp only [perform]
    infer_instance

theorem abides_advance : Abides R (changeFrame fun f ↦ { f with ip := f.ip + 1 }) :=
  abides_changeFrame fun frame ↦ ⟨_, frame.cells, rfl⟩

end

section

variable {R : State → State → Prop} [Permissive R]

instance (c : Closure) : Abides R (onHeap fun h ↦ h.allocClosure c) :=
  .modifyGet fun s ↦ Permissive.made s c

instance (frame : Frame) (x : Nat) : Abides R (makeClosure frame x) := by
  refine .after fun s ↦ ?_
  split
  · infer_instance
  · refine .after fun s ↦ .after fun proto ↦ .after fun s ↦ ?_
    split <;> infer_instance

instance (frame : Frame) (constants : Array Value) (i : Instruction) (op : Opcode) :
    Abides R (perform frame constants i op) := by
  by_cases h : op = .closure
  · subst h
    simp only [perform]
    infer_instance
  · exact abides_perform frame constants i h

/-- So does a whole instruction. -/
instance : Abides R instruction := by
  have hadvance := abides_advance (R := R)
  refine .after fun s ↦ ?_
  split
  · refine .after fun s ↦ ?_
    split
    · infer_instance
    · split
      · infer_instance
      · refine .after fun _ ↦ ?_
        split <;> infer_instance
  · infer_instance

end

end Machine

end MiniLua
