import MiniLua.Proofs.Calls.Sessions
import MiniLua.Proofs.Calls.Tame

/-!
What runs leave as it is. A run abides by what its instructions and builtins abide by if calls and the stack
do not matter to it. No run changes where the globals are or whether text is compiled, nor does one spoil the
pool of strings, in which each string is once.
-/

namespace MiniLua

open Effects Machine

/-- A relation that calls and the stack do not matter to. -/
class Mobile (R : State → State → Prop) : Prop extends Std.Refl R, IsTrans State R where
  calls (s : State) (activations : List Activation) (location : Option Location) :
    R s { s with activations, location }
  window (s : State) (stack : Array Value) (lastMulti : Nat) : R s { s with stack, lastMulti }

/-- A mobile relation that allows all that instructions and builtins do, but for making closures of prototypes
nested in the running one and for giving closures other environments. -/
class Roaming (R : State → State → Prop) : Prop extends Sparing R, Mobile R where
  cells (s : State) (cells : Array Value) : R s { s with heap := { s.heap with cells } }

instance {R : State → State → Prop} [Roaming R] : Frugal R where
  cells := Roaming.cells
  frame s _ _ _ _ _ := Mobile.calls s _ s.location

instance {R : State → State → Prop} [Roaming R] : Spacious R := ⟨fun s stack ↦ Mobile.window s stack s.lastMulti⟩

/-! ### What is called -/

section

variable {R : State → State → Prop}

open Library Loading in
theorem Builtin.abides_resume [Roaming R] (b : Builtin) (memo : Memo) (result : Except RuntimeError (List Value)) :
    Abides R (b.native.resume memo result) := by
  cases b
  case dofile => exact inferInstanceAs (Abides _ (_ >>= _))
  case load =>
    unfold native Library.load
    dsimp only
    split
    · split
      · have hforget (location : Option Location) : Abides R (modify fun s ↦ { s with location } : Machine PUnit) :=
          .modify fun s ↦ Mobile.calls s s.activations location
        infer_instance
      · refine .after fun s ↦ ?_
        split <;> infer_instance
    · infer_instance
  all_goals exact inferInstanceAs (Abides _ (pure _))

instance [Roaming R] (closure floor : Nat) (expected : Option Nat) :
    Abides R (enterClosure closure floor expected) := by
  have hcut (floor : Nat) : Abides R (modify fun s ↦ s.truncate floor : Machine PUnit) :=
    .modify fun s ↦ Mobile.window s _ s.lastMulti
  have hcells (args : List Value) (n : Nat) : Abides R (allocCells args n) := by
    refine ⟨fun s ↦ ?_⟩
    rw [allocCells_apply]
    exact Roaming.cells s _
  have hcall (frame : Frame) : Abides R
      (modify fun s ↦ { s with activations := .guest frame :: s.activations } : Machine PUnit) :=
    .modify fun s ↦ Mobile.calls s _ s.location
  have hdepth : Abides R checkDepth := .after fun s ↦ inferInstance
  refine .after fun _ ↦ .after fun s ↦ ?_
  split <;> infer_instance

instance [Roaming R] (natives : Array Native) (native floor argCount : Nat) (expected : Option Nat) :
    Abides R (enterNative natives native floor argCount expected) := by
  have hcall (call : NativeCall) : Abides R
      (modify fun s ↦ { s with activations := .native call :: s.activations } : Machine PUnit) :=
    .modify fun s ↦ Mobile.calls s _ s.location
  have hdepth : Abides R checkDepth := .after fun s ↦ inferInstance
  refine .after fun _ ↦ ?_
  split <;> infer_instance

end

/-! ### Steps -/

namespace Transition

/-- What follows a state abides by `R`. -/
def Respects (R : State → State → Prop) (k : State → Transition) : Prop := ∀ s, R s (k s).state

section

variable {R : State → State → Prop}

theorem keeps_follow [IsTrans State R] {α : Type} {r : EStateM.Result RuntimeError State α}
    {k : α → State → Transition} {l : RuntimeError → State → Transition} {s : State} (hr : R s (final r))
    (hk : ∀ a t, r = .ok a t → R t (k a t).state) (hl : ∀ e, Respects R (l e)) : R s (follow k l r).state := by
  cases r with
  | ok a t => exact IsTrans.trans _ _ _ hr (hk a t rfl)
  | error e t => exact IsTrans.trans _ _ _ hr (hl e t)

section

variable [Mobile R]

theorem respects_guestError (e : RuntimeError) : Respects R (guestError e) := by
  intro s
  obtain ⟨location, hnote⟩ := noteLocation_eq s
  rw [guestError, hnote]
  exact IsTrans.trans _ _ _ (Mobile.calls s _ location) (Mobile.window _ _ s.lastMulti)

theorem keeps_placeResults (results : List Value) (expected : Option Nat) :
    Keeps R (placeResults results expected) := by
  intro s
  obtain ⟨lastMulti, hcounted⟩ : ∃ lastMulti, counted results expected s = { s with lastMulti } := by
    cases expected <;> exact ⟨_, rfl⟩
  rw [placeResults_eq, hcounted]
  obtain h | ⟨pushed, h⟩ := pushAll_cases (adjusted results expected) { s with lastMulti }
  · rw [h]
    exact Mobile.window s _ lastMulti
  · rw [h]
    exact Mobile.window s _ lastMulti

theorem respects_giveResults (results : List Value) (expected : Option Nat) :
    Respects R (giveResults results expected) := by
  intro s
  unfold giveResults
  split
  · have hplace := keeps_placeResults (R := R) results expected s
    cases hr : placeResults results expected s with
    | ok _ t =>
      rw [hr] at hplace
      exact hplace
    | error e t =>
      rw [hr] at hplace
      exact IsTrans.trans _ _ _ hplace (respects_guestError e t)
  · exact Std.Refl.refl s

theorem respects_nativeError (e : RuntimeError) : Respects R (nativeError e) := by
  intro s
  unfold nativeError
  split
  · next rest _ =>
    have hleave : R s { s with activations := rest } := Mobile.calls s rest s.location
    split
    · next frame calls _ => exact IsTrans.trans _ _ _ hleave (respects_guestError e _)
    · exact IsTrans.trans _ _ _ hleave (Mobile.window _ _ s.lastMulti)
  · exact Std.Refl.refl s

theorem keeps_leave (s : State) (rest : List Activation) (floor : Nat) :
    R s (({ s with activations := rest } : State).truncate floor) :=
  IsTrans.trans _ _ _ (Mobile.calls s rest s.location) (Mobile.window _ _ s.lastMulti)

theorem respects_nativeResults : Respects R nativeResults := by
  intro s
  unfold nativeResults
  split
  · next call rest _ =>
    exact IsTrans.trans _ _ _ (keeps_leave s rest (call.base - 1)) (respects_giveResults _ _ _)
  · exact Std.Refl.refl s

theorem respects_guestReturn (results : List Value) : Respects R (guestReturn results) := by
  intro s
  unfold guestReturn
  split
  · next frame rest _ => exact IsTrans.trans _ _ _ (keeps_leave s rest frame.base) (respects_giveResults _ _ _)
  · exact Std.Refl.refl s

theorem respects_remember (callee : Value) (args : List Value) (memo : Memo) :
    Respects R fun s ↦ .next (.enter callee args) (remember memo s) := by
  intro s
  unfold remember
  dsimp only
  split
  · exact Mobile.calls s _ s.location
  · exact Std.Refl.refl s

theorem respects_refuse (floor : Nat) (e : RuntimeError) : Respects R (refuse floor e) :=
  fun s ↦ Mobile.window s _ s.lastMulti

/-- What follows a builtin does as the builtin did. -/
theorem keeps_afterNative {s : State} {r : EStateM.Result RuntimeError State Outcome} (hr : R s (final r)) :
    R s (afterNative r).state := by
  have heq : afterNative r = follow (fun outcome t ↦ afterNative (.ok outcome t)) nativeError r := by
    cases r <;> rfl
  rw [heq]
  refine keeps_follow hr (fun outcome t _ ↦ ?_) respects_nativeError
  cases outcome with
  | finished => exact respects_nativeResults t
  | invoke callee args memo => exact respects_remember callee args memo t

end

/-- In a step from `s` the builtin `b` starts in `x`. A function called it, or another builtin or the host. -/
inductive Starts (natives : Array Native) : Mode → State → Native → State → Prop
  | guest {s t : State} {argCount slot : Nat} {expected : Option Nat} {b : Native} {x : State}
      (hcall : instruction s = .ok (.call argCount expected) t) (hargs : argCount + 1 ≤ t.stack.size)
      (hcallee : t.stack.getD (t.stack.size - (argCount + 1)) .nil = .native slot)
      (henter : enterNative natives slot (t.stack.size - (argCount + 1)) argCount expected t = .ok b x) :
      Starts natives .execute s b x
  | host {s t : State} {slot : Nat} {args : List Value} {location : Option Location} {b : Native} {x : State}
      (hpush : pushAll (.native slot :: args) { s with location } = .ok () t)
      (henter : enterNative natives slot s.stack.size args.length none t = .ok b x) :
      Starts natives (.enter (.native slot) args) s b x

theorem Starts.mem {natives : Array Native} {mode : Mode} {s x : State} {b : Native}
    (h : Starts natives mode s b x) : b ∈ natives := by
  cases h with
  | guest _ _ _ henter => exact returns_enterNative _ _ _ _ _ _ _ henter
  | host _ henter => exact returns_enterNative _ _ _ _ _ _ _ henter

variable [Roaming R] {natives : Array Native}

theorem keeps_enterCallee {fail : RuntimeError → State → Transition} (hfail : ∀ e, Respects R (fail e))
    {callee : Value} {floor argCount : Nat} {expected : Option Nat} {s : State}
    (hstart : ∀ slot b x, callee = .native slot → enterNative natives slot floor argCount expected s = .ok b x →
      R x (final (b.start x))) :
    R s (enterCallee natives fail callee floor argCount expected s).state := by
  cases callee with
  | closure c =>
    rw [enterCallee_closure]
    exact keeps_follow (Abides.keeps s) (fun _ t _ ↦ Std.Refl.refl t) hfail
  | native slot =>
    rw [enterCallee_native]
    exact keeps_follow (Abides.keeps s) (fun b x h ↦ keeps_afterNative (hstart slot b x rfl h)) hfail
  | _ => exact hfail _ s

/-- A step abides by `R` if its instruction does and the builtin that starts or goes on in it. -/
theorem keeps_step {mode : Mode} {s : State} (hinstruction : mode = .execute → R s (final (instruction s)))
    (hstart : ∀ b x, Starts natives mode s b x → R x (final (b.start x)))
    (hresume : ∀ b ∈ natives, ∀ memo result, Abides R (b.resume memo result)) :
    R s (step natives mode s).state := by
  -- a builtin can start where a function, another builtin or the host calls it
  cases mode with
  | execute =>
    rw [execute_follow]
    refine keeps_follow (hinstruction rfl) (fun d t hd ↦ ?_) respects_guestError
    cases d with
    | nothing => exact Std.Refl.refl t
    | call argCount expected =>
      change R t (guestCall natives argCount expected t).state
      rw [guestCall_eq]
      split
      · exact respects_guestError _ t
      · next hargs =>
        exact keeps_enterCallee respects_guestError fun slot b x hcallee henter ↦
          hstart b x (.guest hd (Nat.le_of_not_lt hargs) hcallee henter)
    | ret results => exact respects_guestReturn results t
  | enter callee args =>
    obtain ⟨location, hplace⟩ := exists_location s
    rw [step, hostCall_follow, hplace]
    refine IsTrans.trans _ _ _ (Mobile.calls s s.activations location) ?_
    refine keeps_follow (Abides.keeps _) (fun _ t hpush ↦ ?_) (respects_refuse _)
    refine keeps_enterCallee (respects_refuse _) fun slot b x hcallee henter ↦ ?_
    subst hcallee
    exact hstart b x (.host hpush henter)
  | deliver result =>
    rw [step]
    unfold handOver
    split
    · split
      · next call _ _ _ b hb =>
        have := hresume b (Array.mem_of_getElem? hb) call.memo result
        exact keeps_afterNative (Abides.keeps s)
      · exact respects_nativeError _ s
    · exact Std.Refl.refl s

end

end Transition

/-! ### What no run changes -/

/-- The globals are in the same table, text is compiled as before or not, and the pool of strings is exact
if it was. -/
structure State.Fixed (s t : State) : Prop where
  globals : t.globals = s.globals
  compiles : t.compiles = s.compiles
  exact : s.heap.strings.Exact → t.heap.strings.Exact

namespace State

variable {s t : State}

theorem Fixed.of_strings (hglobals : t.globals = s.globals) (hcompiles : t.compiles = s.compiles)
    (hstrings : t.heap.strings = s.heap.strings) : s.Fixed t :=
  ⟨hglobals, hcompiles, fun h ↦ hstrings ▸ h⟩

instance : Std.Refl Fixed := ⟨fun _ ↦ .of_strings rfl rfl rfl⟩

instance : IsTrans State Fixed where
  trans _ _ _ h h' :=
    ⟨h'.globals.trans h.globals, h'.compiles.trans h.compiles, fun hs ↦ h'.exact (h.exact hs)⟩

instance : Roaming Fixed where
  intern _ bytes := ⟨rfl, rfl, fun h ↦ h.intern bytes⟩
  tables _ _ := .of_strings rfl rfl rfl
  operands _ _ _ _ := .of_strings rfl rfl rfl
  host _ _ := .of_strings rfl rfl rfl
  loads _ _ _ hexact := ⟨rfl, rfl, hexact⟩
  closure _ _ := .of_strings rfl rfl rfl
  calls _ _ _ := .of_strings rfl rfl rfl
  window _ _ _ := .of_strings rfl rfl rfl
  cells _ _ := .of_strings rfl rfl rfl

instance : Permissive Fixed where
  environment _ _ _ := .of_strings rfl rfl rfl
  cells := Roaming.cells
  frame s _ _ _ _ _ := Mobile.calls s _ s.location
  made _ _ := .of_strings rfl rfl rfl

end State

structure Native.Fixed (n : Native) : Prop where
  start : Abides State.Fixed n.start
  resume : ∀ memo result, Abides State.Fixed (n.resume memo result)

theorem Builtin.fixed (b : Builtin) : b.native.Fixed where
  start := by
    by_cases hb : b = .setfenv
    · subst hb
      exact Library.abides_setfenv
    · exact b.abides_start hb
  resume := b.abides_resume

theorem Transition.fixed_step {natives : Array Native} (hnatives : ∀ n ∈ natives, n.Fixed) (mode : Mode) :
    Respects State.Fixed (step natives mode) := fun s ↦
  keeps_step (fun _ ↦ Abides.keeps s) (fun b x h ↦ (hnatives b h.mem).start.keeps x)
    fun b hb ↦ (hnatives b hb).resume

theorem fixed_run {natives : Array Native} (hnatives : ∀ n ∈ natives, n.Fixed) (fuel : Nat) (mode : Mode)
    (s : State) : s.Fixed (run natives fuel mode s).state :=
  run_abides (fun mode s ↦ Transition.fixed_step hnatives mode s) fuel mode s

end MiniLua
