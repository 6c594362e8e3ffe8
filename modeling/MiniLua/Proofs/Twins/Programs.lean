import MiniLua.Machine.Native
import MiniLua.Proofs.Calls.Reach
import MiniLua.Proofs.Twins.Values

/-! Builtins that run in two machines side by side. All a builtin sees of a machine corresponds to
what it sees of the other one. -/

namespace MiniLua

open Effects

namespace Heap

/-- Cells, prototypes and the code of closures stay; strings may be added. -/
structure Retains (h k : Heap) : Prop where
  bytes {i : Nat} {s : Bytes} : h.bytes? i = some s → k.bytes? i = some s
  tables : k.tables.size = h.tables.size
  cells : k.cells = h.cells
  protos : k.protos = h.protos
  closures : k.closures.map (fun c ↦ (c.proto, c.upvalues)) =
    h.closures.map fun c ↦ (c.proto, c.upvalues)

namespace Retains

variable {h k l : Heap}

theorem refl (h : Heap) : h.Retains h := ⟨id, rfl, rfl, rfl, rfl⟩

theorem trans (hk : h.Retains k) (kl : k.Retains l) : h.Retains l :=
  ⟨fun hs ↦ kl.bytes (hk.bytes hs), kl.tables.trans hk.tables, kl.cells.trans hk.cells,
    kl.protos.trans hk.protos, kl.closures.trans hk.closures⟩

theorem closures_size (hk : h.Retains k) : k.closures.size = h.closures.size := by
  simpa using congrArg Array.size hk.closures

theorem grows (hk : h.Retains k) : h.Grows k :=
  ⟨hk.bytes, Nat.le_of_eq hk.tables.symm, Nat.le_of_eq hk.closures_size.symm⟩

theorem intern (h : Heap) (s : Bytes) : h.Retains (h.intern s).2 :=
  ⟨(Grows.intern h s).bytes, rfl, rfl, rfl, rfl⟩

end Retains

end Heap

/-- What a builtin that makes no calls leaves as it was. -/
structure State.Retains (s t : State) : Prop where
  heap : s.heap.Retains t.heap
  activations : t.activations = s.activations
  globals : t.globals = s.globals
  stringMethods : t.stringMethods = s.stringMethods
  compiles : t.compiles = s.compiles
  options : t.options = s.options
  lastMulti : t.lastMulti = s.lastMulti
  location : t.location = s.location
  below : ∀ call, s.native? = some call →
    SameBelow (min call.base s.stack.size) s.stack t.stack

namespace State.Retains

variable {s t u : State}

theorem native? (h : s.Retains t) : t.native? = s.native? := by
  rw [State.native?, State.native?, h.activations]

theorem refl (s : State) : s.Retains s :=
  ⟨.refl _, rfl, rfl, rfl, rfl, rfl, rfl, rfl, fun _ _ ↦ .refl (Nat.min_le_right _ _)⟩

theorem trans (h : s.Retains t) (h' : t.Retains u) : s.Retains u where
  heap := h.heap.trans h'.heap
  activations := h'.activations.trans h.activations
  globals := h'.globals.trans h.globals
  stringMethods := h'.stringMethods.trans h.stringMethods
  compiles := h'.compiles.trans h.compiles
  options := h'.options.trans h.options
  lastMulti := h'.lastMulti.trans h.lastMulti
  location := h'.location.trans h.location
  below call hcall := by
    have hbelow := h.below call hcall
    have hbelow' := h'.below call (h.native?.trans hcall)
    refine hbelow.trans (hbelow'.mono ?_)
    have hright := hbelow.right
    omega

end State.Retains

/-- What a builtin can see is the same in both machines. -/
structure State.Linked (n : Nat) (s s' : State) : Prop where
  heap : s.heap.Twins n s'.heap
  host : s'.host = s.host
  frames : List.Forall₂ (fun f f' : Frame ↦
    s.heap.Matches n s'.heap (.closure f.closure) (.closure f'.closure)) s.frames s'.frames
  native : ∃ call call' : NativeCall, s.native? = some call ∧ s'.native? = some call' ∧
    call'.name = call.name ∧ call'.argCount = call.argCount ∧ call'.expected = call.expected ∧
    call.base ≤ s.stack.size ∧ call'.base ≤ s'.stack.size ∧
    List.Forall₂ (s.heap.Matches n s'.heap) (s.stack.toList.drop call.base)
      (s'.stack.toList.drop call'.base)

instance : Std.Refl State.Retains := ⟨.refl⟩

instance : IsTrans State State.Retains := ⟨fun _ _ _ ↦ .trans⟩

/-- Errors that say the same, in the heaps of two machines. -/
abbrev RuntimeError.Alike (n : Nat) (s s' : State) : RuntimeError → RuntimeError → Prop :=
  RuntimeError.Matches (s.heap.Matches n s'.heap)

/-- Two programs of builtins end alike, having changed no more than a builtin may. -/
abbrev Agrees {α α' : Type} (n : Nat) (P : Heap → Heap → α → α' → Prop) (s s' : State) :
    EStateM.Result RuntimeError State α → EStateM.Result RuntimeError State α' → Prop :=
  Sync (RuntimeError.Alike n) (State.Linked n) State.Retains (fun t t' ↦ P t.heap t'.heap) s s'

/-- Two programs that look at their machines and find corresponding things, or fail alike. -/
inductive Peeks {α α' : Type} (n : Nat) (P : α → α' → Prop) (s s' : State) (m : Machine α)
    (m' : Machine α') : Prop
  | ok {a : α} {a' : α'} (hm : m s = .ok a s) (hm' : m' s' = .ok a' s') (ha : P a a') :
      Peeks n P s s' m m'
  | error {e e' : RuntimeError} (hm : m s = .error e s) (hm' : m' s' = .error e' s')
      (he : e.Matches (s.heap.Matches n s'.heap) e') : Peeks n P s s' m m'

namespace Peeks

variable {α α' β β' : Type} {n : Nat} {s s' : State} {m : Machine α} {m' : Machine α'}
  {f : α → Machine β} {f' : α' → Machine β'} {Q : α → α' → Prop}

theorem pure {a : α} {a' : α'} (h : Q a a') :
    Peeks n Q s s' (pure a : Machine α) (pure a' : Machine α') := .ok rfl rfl h

theorem bind {P : β → β' → Prop} (hm : Peeks n Q s s' m m')
    (hf : ∀ a a', Q a a' → Peeks n P s s' (f a) (f' a')) :
    Peeks n P s s' (m >>= f) (m' >>= f') := by
  cases hm with
  | error hm hm' he => exact .error (bind_of_error hm) (bind_of_error hm') he
  | ok hm hm' ha =>
    cases hf _ _ ha with
    | ok hb hb' h => exact .ok ((bind_of_ok hm).trans hb) ((bind_of_ok hm').trans hb') h
    | error hb hb' h => exact .error ((bind_of_ok hm).trans hb) ((bind_of_ok hm').trans hb') h

theorem sync_bind {I K : State → State → Prop} [Std.Refl K] {P : State → State → β → β' → Prop}
    (hm : Peeks n Q s s' m m') (h : I s s')
    (hf : ∀ a a', Q a a' → Sync (RuntimeError.Alike n) I K P s s' (f a s) (f' a' s')) :
    Sync (RuntimeError.Alike n) I K P s s' ((m >>= f) s) ((m' >>= f') s') := by
  cases hm with
  | error hm hm' he =>
    rw [bind_of_error hm, bind_of_error hm']
    exact .error h (Std.Refl.refl s) (Std.Refl.refl s') he
  | ok hm hm' ha =>
    rw [bind_of_ok hm, bind_of_ok hm']
    exact hf _ _ ha

theorem mapM {γ : Type} {g : γ → Machine α} {g' : γ → Machine α'} (cs : List γ)
    (hg : ∀ c, Peeks n Q s s' (g c) (g' c)) :
    Peeks n (List.Forall₂ Q) s s' (cs.mapM g) (cs.mapM g') := by
  induction cs with
  | nil => exact .pure .nil
  | cons c cs ih =>
    rw [List.mapM_cons, List.mapM_cons]
    exact (hg c).bind fun a a' ha ↦ ih.bind fun as as' has ↦ .pure (.cons ha has)

theorem get : Peeks n (fun t t' ↦ t = s ∧ t' = s') s s' get get := .ok rfl rfl ⟨rfl, rfl⟩

theorem throw {e e' : RuntimeError} (he : e.Matches (s.heap.Matches n s'.heap) e') :
    Peeks n Q s s' (throw e : Machine α) (throw e' : Machine α') := .error rfl rfl he

end Peeks

namespace State.Linked

open Machine

variable {n : Nat} {s s' : State} (h : s.Linked n s')

include h

theorem argCount : Peeks n (· = ·) s s' argCount argCount := by
  obtain ⟨call, call', hcall, hcall', -, hcount, -⟩ := h.native
  refine .ok rfl rfl ?_
  simp [hcall, hcall', hcount]

theorem expectedResults : Peeks n (· = ·) s s' expectedResults expectedResults := by
  obtain ⟨call, call', hcall, hcall', -, -, hexpected, -⟩ := h.native
  refine .ok rfl rfl ?_
  simp [hcall, hcall', hexpected]

theorem arg (i : Nat) : Peeks n (s.heap.Matches n s'.heap) s s' (arg i) (arg i) := by
  obtain ⟨call, call', hcall, hcall', -, hcount, -, -, -, hwindow⟩ := h.native
  have hentry := forall₂_getElem? hwindow i
  simp only [List.getElem?_drop, Array.getElem?_toList] at hentry
  have harg : s.heap.Matches n s'.heap
      (if i < call.argCount then s.stack.getD (call.base + i) .nil else .nil)
      (if i < call'.argCount then s'.stack.getD (call'.base + i) .nil else .nil) := by
    rw [hcount, Array.getD_eq_getD_getElem?, Array.getD_eq_getD_getElem?]
    split
    · exact rel_getD hentry .nil
    · exact .nil
  refine .ok ?_ ?_ harg
  · simp only [Machine.arg, bind_apply, get_apply, hcall]
    rfl
  · simp only [Machine.arg, bind_apply, get_apply, hcall']
    rfl

theorem args : Peeks n (List.Forall₂ (s.heap.Matches n s'.heap)) s s' args args :=
  h.argCount.bind fun _ _ hcount ↦ hcount ▸ .mapM _ h.arg

theorem badArgument (i : Nat) (detail : String) :
    Peeks n (RuntimeError.Matches (s.heap.Matches n s'.heap)) s s' (badArgument i detail)
      (badArgument i detail) := by
  obtain ⟨call, call', hcall, hcall', hname, -⟩ := h.native
  refine .ok rfl rfl ?_
  simp only [hcall, hcall', Option.map_some, hname]
  exact .plain _ rfl

theorem wrongType {α α' : Type} {Q : α → α' → Prop} (i : Nat) (wanted : String) :
    Peeks n Q s s' (wrongType i wanted) (wrongType i wanted) := by
  refine h.argCount.bind fun count _ hcount ↦ ?_
  subst hcount
  have hrest (got : String) : Peeks n Q s s'
      (do throw (← Machine.badArgument i (wanted ++ " expected, got " ++ got)) : Machine α)
      (do throw (← Machine.badArgument i (wanted ++ " expected, got " ++ got)) : Machine α') :=
    (h.badArgument _ _).bind fun e e' he ↦ .throw he
  split
  · have hname : Peeks n (· = ·) s s' (do return (← Machine.arg i).typeName)
        (do return (← Machine.arg i).typeName) :=
      (h.arg i).bind fun v v' hv ↦ .pure hv.typeName
    exact hname.bind fun got _ hgot ↦ hgot ▸ hrest got
  · exact hrest _

theorem argNumber? (i : Nat) : Peeks n (· = ·) s s' (argNumber? i) (argNumber? i) := by
  refine Peeks.get.bind fun t t' ⟨ht, ht'⟩ ↦ (h.arg i).bind fun v v' hv ↦ .pure ?_
  subst ht ht'
  exact hv.number?

theorem argInt (i : Nat) : Peeks n (· = ·) s s' (argInt i) (argInt i) := by
  refine (h.argNumber? i).bind fun v _ hv ↦ ?_
  subst hv
  split
  · exact .pure rfl
  · exact h.wrongType _ _

theorem argFloat (i : Nat) : Peeks n (· = ·) s s' (argFloat i) (argFloat i) := by
  refine (h.argNumber? i).bind fun v _ hv ↦ ?_
  subst hv
  split
  · exact .pure rfl
  · exact h.wrongType _ _

theorem argBytes (i : Nat) : Peeks n (· = ·) s s' (argBytes i) (argBytes i) := by
  refine (h.arg i).bind fun v v' hv ↦ ?_
  cases hv with
  | string hi hj =>
    refine Peeks.get.bind fun t t' ⟨ht, ht'⟩ ↦ .pure ?_
    subst ht ht'
    rw [hi, hj]
  | int | float => exact .pure rfl
  | nil | bool | table | closure | native => exact h.wrongType _ _

theorem argBool (i : Nat) : Peeks n (· = ·) s s' (argBool i) (argBool i) :=
  (h.arg i).bind fun _ _ hv ↦ .pure hv.isTruthy

theorem callFrame? (depth : Nat) :
    Peeks n (Option.Rel fun f f' ↦ s.heap.Matches n s'.heap (.closure f.closure)
      (.closure f'.closure)) s s' (callFrame? depth) (callFrame? depth) := by
  unfold Machine.callFrame?
  split
  · exact .pure .none
  · refine Peeks.get.bind fun t t' ⟨ht, ht'⟩ ↦ .pure ?_
    subst ht ht'
    exact forall₂_getElem? h.frames _

omit h in
theorem raise {v v' : Value} (hv : s.heap.Matches n s'.heap v v') :
    Peeks n (RuntimeError.Matches (s.heap.Matches n s'.heap)) s s' (raise v) (raise v') := by
  refine Peeks.get.bind fun t t' ⟨ht, ht'⟩ ↦ .pure ?_
  subst ht ht'
  rw [hv.toText]
  exact .raised _ hv

omit h in
theorem lift {α α' : Type} {Q : α → α' → Prop} {r : Except RuntimeError α}
    {r' : Except RuntimeError α'}
    (hr : ExceptRel (RuntimeError.Matches (s.heap.Matches n s'.heap)) Q r r') :
    Peeks n Q s s' (lift r) (lift r') := by
  cases hr with
  | ok ha => exact .pure ha
  | error he => exact .throw he

end State.Linked

theorem Heap.Twins.intern {n : Nat} {h h' : Heap} (hh : h.Twins n h') (bytes : Bytes) :
    (h.intern bytes).2.Twins n (h'.intern bytes).2 where
  exact := hh.exact.intern bytes
  exact' := hh.exact'.intern bytes
  tables := hh.tables.imp fun _ _ ht ↦ ht.mono fun _ _ hv ↦ hv.mono (.intern h _) (.intern h' _)
  closures := hh.closures.imp fun _ _ hc ↦ hc.mono (.intern h _) (.intern h' _)

namespace Agrees

open Machine

variable {n : Nat} {s s' : State} (h : s.Linked n s')

include h

theorem bytesValue (bytes : Bytes) :
    Agrees n (fun k k' ↦ k.Matches n k') s s' (bytesValue bytes s) (bytesValue bytes s') := by
  have hvalue : (s.heap.intern bytes).2.Matches n (s'.heap.intern bytes).2
      (.string (s.heap.intern bytes).1) (.string (s'.heap.intern bytes).1) :=
    .string (Heap.bytes?_intern h.heap.exact.sound bytes)
      (Heap.bytes?_intern h.heap.exact'.sound bytes)
  have hretains (s : State) : s.Retains { s with heap := (s.heap.intern bytes).2 } :=
    { State.Retains.refl s with heap := .intern s.heap bytes }
  refine .ok ?_ (hretains s) (hretains s') hvalue
  obtain ⟨call, call', hcall, hcall', hname, hcount, hexpected, hbase, hbase', hwindow⟩ := h.native
  refine ⟨h.heap.intern bytes, h.host, ?_, call, call', hcall, hcall', hname, hcount, hexpected,
    hbase, hbase', ?_⟩
  · exact h.frames.imp fun _ _ hf ↦ hf.mono (.intern _ _) (.intern _ _)
  · exact hwindow.imp fun _ _ hv ↦ hv.mono (.intern _ _) (.intern _ _)

theorem setResults {vs vs' : List Value} (hvs : List.Forall₂ (s.heap.Matches n s'.heap) vs vs') :
    Agrees n (fun _ _ _ _ ↦ True) s s' (setResults vs s) (setResults vs' s') := by
  obtain ⟨call, call', hcall, hcall', hname, hcount, hexpected, hbase, hbase', -⟩ := h.native
  have hretains {s : State} {call : NativeCall} (hcall : s.native? = some call)
      (vs : List Value) : s.Retains { s with stack := (s.stack.shrink call.base).appendList vs } :=
    { State.Retains.refl s with
      heap := .refl _
      below := by
        intro call₂ hcall₂
        obtain rfl := Option.some.inj (hcall.symm.trans hcall₂)
        exact (SameBelow.shrink (Nat.min_le_right _ _) (Nat.min_le_left _ _)).trans
          (.appendList (Nat.le_of_eq (Array.size_shrink ..).symm) _) }
  have hwindow {stack : Array Value} {base : Nat} (hbase : base ≤ stack.size) (vs : List Value) :
      base ≤ ((stack.shrink base).appendList vs).size ∧
        ((stack.shrink base).appendList vs).toList.drop base = vs := by
    have hlength : (stack.shrink base).toList.length = base := by
      rw [Array.length_toList, Array.size_shrink]
      omega
    have hlist : ((stack.shrink base).appendList vs).toList = (stack.shrink base).toList ++ vs := by
      rw [Array.appendList_eq_append, Array.toList_appendList]
    constructor
    · rw [← Array.length_toList, hlist, List.length_append]
      omega
    · rw [hlist, List.drop_append_of_le_length (Nat.le_of_eq hlength.symm),
        List.drop_eq_nil_of_le (Nat.le_of_eq hlength), List.nil_append]
  have hrun {s : State} {call : NativeCall} (hcall : s.native? = some call) (vs : List Value) :
      Machine.setResults vs s =
        .ok ⟨⟩ { s with stack := (s.stack.shrink call.base).appendList vs } := by
    simp only [Machine.setResults, modify_apply, hcall]
  rw [hrun hcall, hrun hcall']
  refine .ok ?_ (hretains hcall vs) (hretains hcall' vs') trivial
  refine ⟨h.heap, h.host, h.frames, call, call', hcall, hcall', hname, hcount, hexpected,
    (hwindow hbase vs).1, (hwindow hbase' vs').1, ?_⟩
  dsimp only
  rw [(hwindow hbase vs).2, (hwindow hbase' vs').2]
  exact hvs

end Agrees

end MiniLua
